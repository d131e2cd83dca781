import Mathlib.Data.List.Basic
import Mathlib.Data.List.Induction
import Mathlib.Logic.Function.Basic

/-!
# Independent processes that share one fate

A host runs a family of processes that never touch each other's state. Its schedule is a list of
events, each addressed to one process. The only coupling is *fatality*: as soon as a process enters
a fatal state the whole host stops and every later event is ignored.

Two facts describe such a host completely. While it runs, every process is where it would be if it
had received its own events and nothing else had happened (`state_run`), so the interleaving is
invisible. And it is still running after a schedule exactly when no process, driven by its own
events alone, ends in a fatal state (`running_run_iff`).
-/

namespace SharedFate

variable {ι σ ε : Type*} [DecidableEq ι]

/-- How one process reacts to its events, and which of its states bring the host down. -/
structure Process (σ ε : Type*) where
  /-- The reaction to one event. -/
  step : σ → ε → σ
  /-- The states the host does not survive. -/
  fatal : σ → Bool
  /-- Nothing recovers from a fatal state. -/
  fatal_step : ∀ {s e}, fatal s = true → fatal (step s e) = true

/-- The host: whether it still runs, and the state of each process. -/
structure Host (ι σ : Type*) where
  /-- Whether events are still handled. -/
  running : Bool
  /-- The state of each process. -/
  state : ι → σ

variable (P : Process σ ε)

/-- One event. -/
def Host.step (h : Host ι σ) (e : ι × ε) : Host ι σ :=
  if h.running then
    { running := !P.fatal (P.step (h.state e.1) e.2)
      state := Function.update h.state e.1 (P.step (h.state e.1) e.2) }
  else h

/-- A schedule. -/
def Host.run (h : Host ι σ) (es : List (ι × ε)) : Host ι σ := es.foldl (Host.step P) h

/-- The events of a schedule addressed to `i`. -/
def own (i : ι) (es : List (ι × ε)) : List ε := (es.filter (·.1 = i)).map Prod.snd

/-- Process `i` driven by its own events only. -/
def Host.alone (h : Host ι σ) (es : List (ι × ε)) (i : ι) : σ := (own i es).foldl P.step (h.state i)

variable {P}

@[simp] theorem run_nil (h : Host ι σ) : h.run P [] = h := rfl

theorem run_concat (h : Host ι σ) (es : List (ι × ε)) (e : ι × ε) :
    h.run P (es ++ [e]) = (h.run P es).step P e := by
  rw [Host.run, List.foldl_append, List.foldl_cons, List.foldl_nil, Host.run]

theorem alone_concat (h : Host ι σ) (es : List (ι × ε)) (e : ι × ε) (i : ι) :
    h.alone P (es ++ [e]) i
      = if e.1 = i then P.step (h.alone P es i) e.2 else h.alone P es i := by
  rw [Host.alone, own, List.filter_append, List.map_append, List.foldl_append, ← own, ← Host.alone]
  by_cases hi : e.1 = i <;> simp [hi]

theorem step_of_not_running {h : Host ι σ} (hr : h.running = false) (e : ι × ε) :
    h.step P e = h := by
  rw [Host.step, if_neg (by simp [hr])]

/-- **Interleaving is invisible** while the host runs. -/
theorem state_run {h : Host ι σ} {es : List (ι × ε)} (hr : (h.run P es).running = true) (i : ι) :
    (h.run P es).state i = h.alone P es i := by
  induction es using List.reverseRecOn with
  | nil => rfl
  | append_singleton es e ih =>
    rw [run_concat] at hr ⊢
    have hprev : (h.run P es).running = true := by
      by_contra hn
      rw [Bool.not_eq_true] at hn
      rw [step_of_not_running hn, hn] at hr
      exact Bool.false_ne_true hr
    rw [alone_concat, Host.step, if_pos hprev]
    by_cases hi : e.1 = i
    · subst hi
      simp only [Function.update_self, if_true, ih hprev]
    · simp only [Function.update_of_ne (Ne.symm hi), if_neg hi, ih hprev]

/-- A process that is fatal on its own stays so. -/
theorem fatal_alone_concat {h : Host ι σ} {es : List (ι × ε)} {i : ι}
    (hf : P.fatal (h.alone P es i) = true) (e : ι × ε) :
    P.fatal (h.alone P (es ++ [e]) i) = true := by
  rw [alone_concat]
  split
  · exact P.fatal_step hf
  · exact hf

/-- **Survival.** A host that starts running, with no process in a fatal state, still runs after a
schedule exactly when no process is driven into a fatal state by its own events. -/
theorem running_run_iff {h : Host ι σ} (hrun : h.running = true)
    (hsafe : ∀ i, P.fatal (h.state i) = false) (es : List (ι × ε)) :
    (h.run P es).running = true ↔ ∀ i, P.fatal (h.alone P es i) = false := by
  induction es using List.reverseRecOn with
  | nil => exact iff_of_true hrun hsafe
  | append_singleton es e ih =>
    rw [run_concat]
    by_cases hprev : (h.run P es).running = true
    · -- only the addressed process can bring the host down now
      have hall := ih.mp hprev
      rw [Host.step, if_pos hprev]
      simp only [Bool.not_eq_true', state_run hprev]
      constructor
      · intro he i
        rw [alone_concat]
        by_cases hi : e.1 = i
        · subst hi
          simpa using he
        · rw [if_neg hi]
          exact hall i
      · intro h'
        have := h' e.1
        rwa [alone_concat, if_pos rfl] at this
    · -- the process that stopped the host is still fatal
      rw [step_of_not_running (by simpa using hprev)]
      refine iff_of_false hprev fun hall ↦ hprev (ih.mpr fun i ↦ ?_)
      by_contra hf
      rw [Bool.not_eq_false] at hf
      have := fatal_alone_concat hf e
      rw [hall i] at this
      exact Bool.false_ne_true this

end SharedFate
