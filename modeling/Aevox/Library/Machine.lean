import Mathlib.Data.Option.Basic
import Mathlib.Data.List.Basic
import Mathlib.Data.List.Induction

/-!
# Machines moved by events

A machine is a partial step function: `step s e` is `none` when the event `e` cannot happen in the
state `s`. A run is a list of events each of which could happen when it did. What every step
preserves holds after every run (`run_invariant`), also when the steps only preserve it under a
condition that no step can make true (`run_invariant_of`) or that is asked of each of them
(`run_invariant_along`), and an invariant may speak of the events so far (`run_history`). Whatever
holds after a run but not before it became true in one particular step (`exists_step_of_run`). If
another machine follows each step, it follows every run (`run_simulation`, `reach_of_run`). That a
goal can be reached is shown one event at a time (`CanReach.cons`).
-/

namespace Machine

variable {σ ε : Type*} (step : σ → ε → Option σ)

/-- The state after a list of events, if they can happen one after another. -/
def run (s : σ) : List ε → Option σ
  | [] => some s
  | e :: es => (step s e).bind fun s' ↦ run s' es

variable {step}

@[simp] theorem run_nil (s : σ) : run step s [] = some s := rfl

theorem run_cons_eq_some_iff {s s' : σ} {e : ε} {es : List ε} :
    run step s (e :: es) = some s' ↔ ∃ s₁, step s e = some s₁ ∧ run step s₁ es = some s' :=
  Option.bind_eq_some_iff

theorem run_singleton (s : σ) (e : ε) : run step s [e] = step s e := by
  rw [run]
  exact Option.bind_fun_some _

theorem run_append {es es' : List ε} : ∀ {s : σ},
    run step s (es ++ es') = (run step s es).bind fun s' ↦ run step s' es' := by
  induction es with
  | nil => exact fun {s} ↦ rfl
  | cons e es ih =>
    intro s
    rw [List.cons_append, run, run, Option.bind_assoc]
    exact congrArg _ (funext fun s' ↦ ih)

theorem run_append_of_some {s s₁ : σ} {es : List ε} (h : run step s es = some s₁) (es' : List ε) :
    run step s (es ++ es') = run step s₁ es' := by
  rw [run_append, h, Option.bind_some]

theorem run_trans {s s₁ s₂ : σ} {es es' : List ε} (h : run step s es = some s₁)
    (h' : run step s₁ es' = some s₂) : run step s (es ++ es') = some s₂ :=
  (run_append_of_some h es').trans h'

/-- **Invariants**, for runs of certain events only. -/
theorem run_invariant_on {E : ε → Prop} {I : σ → Prop}
    (hstep : ∀ s e s', E e → I s → step s e = some s' → I s') {es : List ε} :
    ∀ {s s' : σ}, (∀ e ∈ es, E e) → I s → run step s es = some s' → I s' := by
  induction es with
  | nil =>
    intro s s' _ hs hrun
    rwa [← Option.some.inj hrun]
  | cons e es ih =>
    intro s s' hes hs hrun
    obtain ⟨he, hes⟩ := List.forall_mem_cons.mp hes
    obtain ⟨s₁, hs₁, hrest⟩ := run_cons_eq_some_iff.mp hrun
    exact ih hes (hstep s e s₁ he hs hs₁) hrest

/-- **Invariants.** -/
theorem run_invariant {I : σ → Prop} (hstep : ∀ s e s', I s → step s e = some s' → I s')
    {es : List ε} {s s' : σ} (hs : I s) (hrun : run step s es = some s') : I s' :=
  run_invariant_on (E := fun _ ↦ True) (fun s e s' _ ↦ hstep s e s') (fun _ _ ↦ trivial) hs hrun

/-- What no step makes true, no run makes true. -/
theorem of_run {G : σ → Prop} (hG : ∀ s e s', step s e = some s' → G s' → G s) {s s' : σ}
    {es : List ε} (hrun : run step s es = some s') (hs' : G s') : G s := by
  by_contra hs
  exact run_invariant (I := fun s ↦ ¬G s) (fun s e s' hs hstep hs' ↦ hs (hG s e s' hstep hs')) hs
    hrun hs'

/-- **Invariants under a condition.** -/
theorem run_invariant_of {I G : σ → Prop} (hG : ∀ s e s', step s e = some s' → G s' → G s)
    (hstep : ∀ s e s', I s → step s e = some s' → G s' → I s') {es : List ε} :
    ∀ {s s' : σ}, I s → run step s es = some s' → G s' → I s' := by
  induction es with
  | nil =>
    intro s s' hs hrun _
    rwa [← Option.some.inj hrun]
  | cons e es ih =>
    intro s s' hs hrun hs'
    obtain ⟨s₁, hs₁, hrest⟩ := run_cons_eq_some_iff.mp hrun
    exact ih (hstep s e s₁ hs hs₁ (of_run hG hrest hs')) hrest hs'

/-- Every step of the run meets the condition. -/
def Along (step : σ → ε → Option σ) (C : σ → ε → Prop) : σ → List ε → Prop
  | _, [] => True
  | s, e :: es => C s e ∧ ∀ s', step s e = some s' → Along step C s' es

theorem along_cons {C : σ → ε → Prop} {s s₁ : σ} {e : ε} {es : List ε} (hC : C s e)
    (hs₁ : step s e = some s₁) (h : Along step C s₁ es) : Along step C s (e :: es) :=
  ⟨hC, fun _ hs' ↦ Option.some.inj (hs₁.symm.trans hs') ▸ h⟩

/-- A run can be checked against the condition step by step. -/
instance decidableAlong {C : σ → ε → Prop} [∀ s e, Decidable (C s e)] :
    ∀ (s : σ) (es : List ε), Decidable (Along step C s es)
  | _, [] => isTrue trivial
  | s, e :: es =>
    match h : step s e with
    | none => decidable_of_iff (C s e)
        ⟨fun hC ↦ ⟨hC, fun _ hs' ↦ absurd (h.symm.trans hs') (by simp)⟩, And.left⟩
    | some s₁ =>
      haveI : Decidable (Along step C s₁ es) := decidableAlong s₁ es
      decidable_of_iff (C s e ∧ Along step C s₁ es)
        ⟨fun hC ↦ along_cons hC.1 h hC.2, fun hC ↦ ⟨hC.1, hC.2 s₁ h⟩⟩

theorem along_of_forall {C : σ → ε → Prop} {es : List ε} :
    ∀ {s : σ}, (∀ e ∈ es, ∀ s, C s e) → Along step C s es := by
  induction es with
  | nil => exact fun _ ↦ trivial
  | cons e es ih =>
    intro s h
    obtain ⟨he, hes⟩ := List.forall_mem_cons.mp h
    exact ⟨he s, fun _ _ ↦ ih hes⟩

theorem along_iff {C : σ → ε → Prop} {es : List ε} : ∀ {s : σ}, Along step C s es ↔
    ∀ es₁ e s₁, es₁ ++ [e] <+: es → run step s es₁ = some s₁ → C s₁ e := by
  induction es with
  | nil => exact fun {s} ↦ ⟨fun _ es₁ e s₁ hpre ↦ by simp at hpre, fun _ ↦ trivial⟩
  | cons e es ih =>
    intro s
    rw [Along]
    constructor
    · rintro ⟨hC, hes⟩ es₁ e' s₁ hpre hrun
      cases es₁ with
      | nil =>
        obtain ⟨rfl, -⟩ := List.cons_prefix_cons.mp hpre
        rwa [← Option.some.inj hrun]
      | cons e₁ es₁ =>
        obtain ⟨rfl, htail⟩ := List.cons_prefix_cons.mp hpre
        obtain ⟨s₂, hs₂, hrun⟩ := run_cons_eq_some_iff.mp hrun
        exact ih.mp (hes s₂ hs₂) es₁ e' s₁ htail hrun
    · intro h
      refine ⟨h [] e s (List.prefix_append [e] es) rfl, fun s₂ hs₂ ↦ ?_⟩
      refine ih.mpr fun es₁ e' s₁ hpre hrun ↦ ?_
      refine h (e :: es₁) e' s₁ ((List.prefix_cons_inj e).mpr hpre) ?_
      exact run_cons_eq_some_iff.mpr ⟨s₂, hs₂, hrun⟩

theorem along_append {C : σ → ε → Prop} {es es' : List ε} :
    ∀ {s s₁ : σ}, Along step C s es → run step s es = some s₁ → Along step C s₁ es' →
      Along step C s (es ++ es') := by
  induction es with
  | nil =>
    intro s s₁ _ hrun h
    rwa [← Option.some.inj hrun] at h
  | cons e es ih =>
    intro s s₁ hC hrun h
    obtain ⟨s₂, hs₂, hrest⟩ := run_cons_eq_some_iff.mp hrun
    exact along_cons hC.1 hs₂ (ih (hC.2 s₂ hs₂) hrest h)

/-- **Invariants of runs whose steps meet a condition.** -/
theorem run_invariant_along {C : σ → ε → Prop} {I : σ → Prop}
    (hstep : ∀ s e s', I s → C s e → step s e = some s' → I s') {es : List ε} :
    ∀ {s s' : σ}, Along step C s es → I s → run step s es = some s' → I s' := by
  induction es with
  | nil =>
    intro s s' _ hs hrun
    rwa [← Option.some.inj hrun]
  | cons e es ih =>
    intro s s' hC hs hrun
    obtain ⟨s₁, hs₁, hrest⟩ := run_cons_eq_some_iff.mp hrun
    exact ih (hC.2 s₁ hs₁) (hstep s e s₁ hs hC.1 hs₁) hrest

/-- **Simulation.** A machine that follows every step follows every run. -/
theorem run_simulation {τ δ : Type*} {step' : τ → δ → Option τ} {I : σ → Prop} {abs : σ → τ}
    {view : ε → List δ} (hinv : ∀ s e s', I s → step s e = some s' → I s')
    (hstep : ∀ s e s', I s → step s e = some s' → run step' (abs s) (view e) = some (abs s'))
    {es : List ε} : ∀ {s s' : σ}, I s → run step s es = some s' →
      run step' (abs s) (es.flatMap view) = some (abs s') := by
  induction es with
  | nil =>
    intro s s' _ hrun
    rw [← Option.some.inj hrun]
    rfl
  | cons e es ih =>
    intro s s' hs hrun
    obtain ⟨s₁, hs₁, hrest⟩ := run_cons_eq_some_iff.mp hrun
    rw [List.flatMap_cons, run_append_of_some (hstep s e s₁ hs hs₁)]
    exact ih (hinv s e s₁ hs hs₁) hrest

/-- A run whose steps meet the condition leads from the one state to the other. -/
def Reach (step : σ → ε → Option σ) (C : σ → ε → Prop) (s s' : σ) : Prop :=
  ∃ es, run step s es = some s' ∧ Along step C s es

theorem Reach.single {C : σ → ε → Prop} {s s' : σ} {e : ε} (hC : C s e) (h : step s e = some s') :
    Reach step C s s' :=
  ⟨[e], (run_singleton s e).trans h, along_cons hC h trivial⟩

theorem Reach.trans {C : σ → ε → Prop} {s s₁ s₂ : σ} (h : Reach step C s s₁)
    (h' : Reach step C s₁ s₂) : Reach step C s s₂ := by
  obtain ⟨es, hrun, hC⟩ := h
  obtain ⟨es', hrun', hC'⟩ := h'
  exact ⟨es ++ es', run_trans hrun hrun', along_append hC hrun hC'⟩

/-- **Simulation by a relation.** If every step of one machine is followed by a run of another one
whose steps meet a condition, so is every run. -/
theorem reach_of_run {τ δ : Type*} {step' : τ → δ → Option τ} {C : τ → δ → Prop} {R : σ → τ → Prop}
    (hstep : ∀ s e s' t, R s t → step s e = some s' → ∃ t', Reach step' C t t' ∧ R s' t')
    {es : List ε} : ∀ {s s' : σ} {t : τ}, R s t → run step s es = some s' →
      ∃ t', Reach step' C t t' ∧ R s' t' := by
  induction es with
  | nil =>
    intro s s' t ht hrun
    rw [← Option.some.inj hrun]
    exact ⟨t, ⟨[], rfl, trivial⟩, ht⟩
  | cons e es ih =>
    intro s s' t ht hrun
    obtain ⟨s₁, hs₁, hrest⟩ := run_cons_eq_some_iff.mp hrun
    obtain ⟨t₁, hreach₁, ht₁⟩ := hstep s e s₁ t ht hs₁
    obtain ⟨t', hreach, ht'⟩ := ih ht₁ hrest
    exact ⟨t', hreach₁.trans hreach, ht'⟩

/-- Some run of certain events leads to a goal. -/
def CanReach (step : σ → ε → Option σ) (E : ε → Prop) (G : σ → Prop) (s : σ) : Prop :=
  ∃ es s', (∀ e ∈ es, E e) ∧ run step s es = some s' ∧ G s'

section

variable {E : ε → Prop} {G : σ → Prop} {s s' : σ}

theorem CanReach.of_goal (h : G s) : CanReach step E G s :=
  ⟨[], s, fun _ he ↦ absurd he List.not_mem_nil, rfl, h⟩

theorem CanReach.of_run {es : List ε} (hes : ∀ e ∈ es, E e) (h : run step s es = some s')
    (hs' : CanReach step E G s') : CanReach step E G s := by
  obtain ⟨es', t, hes', hrun, ht⟩ := hs'
  exact ⟨es ++ es', t, List.forall_mem_append.mpr ⟨hes, hes'⟩, run_trans h hrun, ht⟩

theorem CanReach.cons {e : ε} (he : E e) (h : step s e = some s')
    (hs' : CanReach step E G s') : CanReach step E G s :=
  .of_run (List.forall_mem_singleton.mpr he) ((run_singleton s e).trans h) hs'

end

/-- What a run makes true, one of its steps makes true. -/
theorem exists_step_of_run {P : σ → Prop} {es : List ε} : ∀ {s s' : σ}, ¬P s → P s' →
    run step s es = some s' →
    ∃ es₁ s₁ e s₂, run step s es₁ = some s₁ ∧ ¬P s₁ ∧ step s₁ e = some s₂ ∧ P s₂ ∧
      es₁ ++ [e] <+: es := by
  induction es with
  | nil =>
    intro s s' hs hs' hrun
    rw [← Option.some.inj hrun] at hs'
    exact absurd hs' hs
  | cons e es ih =>
    intro s s' hs hs' hrun
    obtain ⟨s₁, hs₁, hrest⟩ := run_cons_eq_some_iff.mp hrun
    by_cases hP : P s₁
    -- the first step is the one
    · exact ⟨[], s, e, s₁, rfl, hs, hs₁, hP, List.prefix_append [e] es⟩
    · obtain ⟨es₁, s₂, e', s₃, hrun₁, hs₂, hs₃, hP₃, hpre⟩ := ih hP hs' hrest
      refine ⟨e :: es₁, s₂, e', s₃, ?_, hs₂, hs₃, hP₃, (List.prefix_cons_inj e).mpr hpre⟩
      exact run_cons_eq_some_iff.mpr ⟨s₁, hs₁, hrun₁⟩

/-- **Invariants about a run and its history.** -/
theorem run_history {s₀ : σ} {P : List ε → σ → Prop} (hnil : P [] s₀)
    (hstep : ∀ es s e s', run step s₀ es = some s → P es s → step s e = some s' → P (es ++ [e]) s')
    {es : List ε} : ∀ {s : σ}, run step s₀ es = some s → P es s := by
  induction es using List.reverseRecOn with
  | nil =>
    intro s hrun
    rwa [← Option.some.inj hrun]
  | append_singleton es e ih =>
    intro s hrun
    rw [run_append] at hrun
    obtain ⟨s₁, hs₁, hlast⟩ := Option.bind_eq_some_iff.mp hrun
    obtain ⟨s₂, hs₂, hnil⟩ := run_cons_eq_some_iff.mp hlast
    rw [run_nil] at hnil
    exact hstep es s₁ e s hs₁ (ih hs₁) (hs₂.trans hnil)

end Machine
