import Mathlib.Data.List.Basic

/-!
# Runs of a labelled step function

A system is a partial step function `step : Λ → σ → Option σ`.  A label says
who moves and with which arguments, and `none` says that the move is not
possible in that state.  A *run* is a sequence of possible steps.  It records
the state in which each step was taken and the label of the step, so that a
statement about a run can speak of every state it passes and of every step it
takes.

`Run.invariant` is the induction of every safety proof: what holds at the start
and is kept by every step holds in every state passed.  `Run.forall_iff` is the
sharper form for a property that some steps break.  If the steps that are `Ok`
keep an invariant that gives the property, and a step that is not `Ok` loses
the property at once, then the property holds along a run exactly when every
step of the run is `Ok`.

`Run.observed_eq` compares two runs that take the same visible steps and any
hidden ones.  What is observed at the visible steps is the same in both if a
relation between the two runs is kept by the hidden steps of either and by the
visible steps of both.
-/

namespace Runs

variable {σ Λ : Type*} {step : Λ → σ → Option σ}

/-- `Run step s tr t`: from `s` the steps of `tr` lead to `t`.  Each entry of
`tr` is the state a step was taken in and the label of the step. -/
inductive Run (step : Λ → σ → Option σ) : σ → List (σ × Λ) → σ → Prop
  | nil (s : σ) : Run step s [] s
  | cons {s t u : σ} {l : Λ} {tr : List (σ × Λ)} :
      step l s = some t → Run step t tr u → Run step s ((s, l) :: tr) u

/-- A property of every state a run passes, the last one included. -/
def Along (P : σ → Prop) (tr : List (σ × Λ)) (u : σ) : Prop :=
  (∀ x ∈ tr, P x.1) ∧ P u

/-- A property of every step a run takes, read in the state before the step. -/
def EveryStep (Ok : σ → Λ → Prop) (tr : List (σ × Λ)) : Prop :=
  ∀ x ∈ tr, Ok x.1 x.2

theorem along_cons {P : σ → Prop} {x : σ × Λ} {tr : List (σ × Λ)} {u : σ} :
    Along P (x :: tr) u ↔ P x.1 ∧ Along P tr u := by
  simp only [Along, List.forall_mem_cons, and_assoc]

theorem everyStep_cons {Ok : σ → Λ → Prop} {x : σ × Λ} {tr : List (σ × Λ)} :
    EveryStep Ok (x :: tr) ↔ Ok x.1 x.2 ∧ EveryStep Ok tr :=
  List.forall_mem_cons

/-- A run is one step longer when one more step is taken at its end. -/
theorem Run.snoc {s t u : σ} {l : Λ} {tr : List (σ × Λ)} (h : Run step s tr t)
    (hs : step l t = some u) : Run step s (tr ++ [(t, l)]) u := by
  induction h with
  | nil s => exact .cons hs (.nil _)
  | cons h1 _ ih => exact .cons h1 (ih hs)

/-- Two runs of which one ends where the other starts. -/
theorem Run.append {s t u : σ} {tr tr' : List (σ × Λ)} (h : Run step s tr t)
    (h' : Run step t tr' u) : Run step s (tr ++ tr') u := by
  induction h with
  | nil s => exact h'
  | cons h1 _ ih => exact .cons h1 (ih h')

/-- What holds at the start and is kept by every step holds along every run. -/
theorem Run.invariant {I : σ → Prop} (hstep : ∀ s l t, I s → step l s = some t → I t)
    {s u : σ} {tr : List (σ × Λ)} (h : Run step s tr u) (hs : I s) : Along I tr u := by
  induction h with
  | nil s => exact ⟨by simp, hs⟩
  | cons h1 _ ih => exact along_cons.mpr ⟨hs, ih (hstep _ _ _ hs h1)⟩

/-- The same for the last state alone. -/
theorem Run.invariant_last {I : σ → Prop} (hstep : ∀ s l t, I s → step l s = some t → I t)
    {s u : σ} {tr : List (σ × Λ)} (h : Run step s tr u) (hs : I s) : I u :=
  (h.invariant hstep hs).2

/-- An invariant that the `Ok` steps keep holds along every run of `Ok` steps. -/
theorem Run.invariant_of {I : σ → Prop} {Ok : σ → Λ → Prop}
    (hstep : ∀ s l t, I s → Ok s l → step l s = some t → I t)
    {s u : σ} {tr : List (σ × Λ)} (h : Run step s tr u) (hs : I s) (hok : EveryStep Ok tr) :
    Along I tr u := by
  induction h with
  | nil s => exact ⟨by simp, hs⟩
  | cons h1 _ ih =>
      obtain ⟨hl, hrest⟩ := everyStep_cons.mp hok
      exact along_cons.mpr ⟨hs, ih (hstep _ _ _ hs hl h1) hrest⟩

theorem Along.mono {P Q : σ → Prop} (hPQ : ∀ s, P s → Q s) {tr : List (σ × Λ)} {u : σ}
    (h : Along P tr u) : Along Q tr u :=
  ⟨fun x hx => hPQ _ (h.1 x hx), hPQ _ h.2⟩

theorem Along.head {P : σ → Prop} {s u : σ} {tr : List (σ × Λ)} (h : Run step s tr u)
    (hP : Along P tr u) : P s := by
  cases h with
  | nil => exact hP.2
  | cons _ _ => exact (along_cons.mp hP).1

/-- A property holds along a run exactly when every step of the run is `Ok`:
`Ok` steps keep an invariant that gives the property, and a step that is not
`Ok` loses the property. -/
theorem Run.forall_iff {I P : σ → Prop} {Ok : σ → Λ → Prop}
    (hP : ∀ s, I s → P s)
    (hkeep : ∀ s l t, I s → Ok s l → step l s = some t → I t)
    (hlose : ∀ s l t, I s → ¬ Ok s l → step l s = some t → ¬ P t)
    {s u : σ} {tr : List (σ × Λ)} (h : Run step s tr u) (hs : I s) :
    Along P tr u ↔ EveryStep Ok tr := by
  constructor
  · intro hall
    induction h with
    | nil s => intro x hx; cases hx
    | @cons s t u l tr h1 hrest ih =>
        obtain ⟨-, htail⟩ := along_cons.mp hall
        have hok : Ok s l := by
          by_contra hbad
          exact hlose s l t hs hbad h1 (htail.head hrest)
        exact everyStep_cons.mpr ⟨hok, ih (hkeep s l t hs hok h1) htail⟩
  · intro hok
    exact (h.invariant_of hkeep hs hok).mono hP

/-- Runs the labels of a list in order. -/
def exec (step : Λ → σ → Option σ) : List Λ → σ → Option σ
  | [], s => some s
  | l :: ls, s => (step l s).bind (exec step ls)

/-- A list of labels that can be executed is a run. -/
theorem run_of_exec : ∀ {ls : List Λ} {s t : σ}, exec step ls s = some t →
    ∃ tr, Run step s tr t ∧ tr.map Prod.snd = ls
  | [], s, t, h => by
      cases h
      exact ⟨[], .nil s, rfl⟩
  | l :: ls, s, t, h => by
      rw [exec, Option.bind_eq_some_iff] at h
      obtain ⟨s', h1, h2⟩ := h
      obtain ⟨tr, hr, hl⟩ := run_of_exec h2
      exact ⟨(s, l) :: tr, .cons h1 hr, by rw [List.map_cons, hl]⟩

/-- The same where each step is tested before it is taken. -/
theorem run_of_exec_if {Ok : σ → Λ → Prop} [∀ s l, Decidable (Ok s l)] :
    ∀ {ls : List Λ} {s t : σ}, exec (fun l s => if Ok s l then step l s else none) ls s = some t →
      ∃ tr, Run step s tr t ∧ EveryStep Ok tr ∧ tr.map Prod.snd = ls
  | [], s, t, h => by
      cases h
      exact ⟨[], .nil s, fun _ hx => absurd hx List.not_mem_nil, rfl⟩
  | l :: ls, s, t, h => by
      rw [exec, Option.bind_eq_some_iff] at h
      obtain ⟨s', h1, h2⟩ := h
      split at h1
      · next hok =>
        obtain ⟨tr, hr, hall, hl⟩ := run_of_exec_if h2
        exact ⟨(s, l) :: tr, .cons h1 hr, everyStep_cons.mpr ⟨hok, hall⟩,
          by rw [List.map_cons, hl]⟩
      · cases h1

/-! ## Two runs -/

/-- What is observed at the visible steps of a run. -/
def observed {β : Type*} (vis : Λ → Bool) (obs : σ → Λ → β) (tr : List (σ × Λ)) : List β :=
  (tr.filter fun x => vis x.2).map fun x => obs x.1 x.2

/-- The labels of the visible steps of a run. -/
def visible (vis : Λ → Bool) (tr : List (σ × Λ)) : List Λ := observed vis (fun _ l => l) tr

section TwoRuns

variable {β : Type*} {vis : Λ → Bool} {obs : σ → Λ → β} {x : σ × Λ} {tr : List (σ × Λ)}

theorem observed_hidden (h : vis x.2 = false) :
    observed vis obs (x :: tr) = observed vis obs tr := by
  simp [observed, h]

theorem observed_visible (h : vis x.2 = true) :
    observed vis obs (x :: tr) = obs x.1 x.2 :: observed vis obs tr := by
  simp [observed, h]

theorem observed_nil_iff : observed vis obs tr = [] ↔ visible vis tr = [] := by
  simp only [visible, observed, List.map_eq_nil_iff]

/-- A run up to its first visible step. -/
theorem Run.first_visible {P : σ → Prop} {t v : σ} {l : Λ} {ls : List Λ}
    (h : Run step t tr v) (obs : σ → Λ → β)
    (hhidden : ∀ s l t, P s → vis l = false → step l s = some t → P t)
    (ht : P t) (hvis : visible vis tr = l :: ls) :
    ∃ s u tr', P s ∧ step l s = some u ∧ Run step u tr' v ∧ vis l = true ∧
      visible vis tr' = ls ∧ observed vis obs tr = obs s l :: observed vis obs tr' := by
  induction h with
  | nil s => cases hvis
  | @cons s t u l' tr h1 hrest ih =>
      cases hl : vis l' with
      | false =>
          rw [visible, observed_hidden hl] at hvis
          obtain ⟨s', u', tr', hs', hst, hr, hv, hls, hobs⟩ := ih (hhidden s l' t ht hl h1) hvis
          exact ⟨s', u', tr', hs', hst, hr, hv, hls, (observed_hidden hl).trans hobs⟩
      | true =>
          rw [visible, observed_visible hl] at hvis
          obtain ⟨rfl, hls⟩ := List.cons.inj hvis
          exact ⟨s, t, tr, ht, h1, hrest, hl, hls, observed_visible hl⟩

/-- Two runs with the same visible steps are observed alike. -/
theorem Run.observed_eq {B : σ → σ → Prop}
    (hleft : ∀ s t l s', B s t → vis l = false → step l s = some s' → B s' t)
    (hright : ∀ s t l t', B s t → vis l = false → step l t = some t' → B s t')
    (hboth : ∀ s t l s' t', B s t → vis l = true → step l s = some s' → step l t = some t' →
      B s' t')
    (hobs : ∀ s t l, B s t → vis l = true → obs s l = obs t l)
    {s t u v : σ} {tr tr' : List (σ × Λ)} (h : Run step s tr u) (h' : Run step t tr' v)
    (hs : B s t) (hvis : visible vis tr = visible vis tr') :
    observed vis obs tr = observed vis obs tr' := by
  induction h generalizing t tr' with
  | nil s => exact (observed_nil_iff.mpr hvis.symm).symm
  | @cons s s₁ u l tr h1 hrest ih =>
      cases hl : vis l with
      | false =>
          rw [visible, observed_hidden hl] at hvis
          rw [observed_hidden hl]
          exact ih h' (hleft s t l s₁ hs hl h1) hvis
      | true =>
          rw [visible, observed_visible hl] at hvis
          obtain ⟨t₁, t₂, tr₂, ht₁, hst, hr, -, hls, hobs'⟩ :=
            h'.first_visible obs (P := B s) (fun t l t' hst hv => hright s t l t' hst hv)
              hs hvis.symm
          rw [observed_visible hl, hobs', hobs s t₁ l ht₁ hl,
            ih hr (hboth s t₁ l s₁ t₂ ht₁ hl h1 hst) hls.symm]

end TwoRuns

end Runs
