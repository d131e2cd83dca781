import Aevox.App.Connection

/-!
# One dispatch

While a request is in the pipeline the connection answers the task's operations and nothing else
happens to it. Two rules carry facts about tasks over to runs of the connection. Forwards
(`settled_advance`): what the operations preserve holds wherever the dispatch is suspended, and an
outcome it can end with satisfies every postcondition of the task. Backwards
(`exists_run_of_ends`): every outcome the task can end with is reached by some run.
-/

namespace Aevox

open Coroutine

/-! ## Events -/

/-- The event belongs to a dispatch or a write; it brings no data. -/
def Event.isReply : Event → Prop
  | .readDone _ => False
  | _ => True

/-- What a read brings. -/
def Event.data? : Event → Option (Option Bytes)
  | .readDone data => some data
  | _ => none

/-- The reads bring the first of `reads`. -/
def Delivers (es : List Event) (reads : List Bytes) : Prop :=
  es.filterMap Event.data? <+: reads.map some

theorem delivers_of_eq {es : List Event} {reads : List Bytes}
    (h : es.filterMap Event.data? = reads.map some) : Delivers es reads := by
  rw [Delivers, h]

theorem delivers_readDone {data : Option Bytes} {es : List Event} {reads : List Bytes}
    (h : Delivers (.readDone data :: es) reads) :
    ∃ r reads', reads = r :: reads' ∧ data = some r ∧ Delivers es reads' := by
  change data :: es.filterMap Event.data? <+: reads.map some at h
  rcases reads with _ | ⟨r, reads⟩
  · exact absurd (List.prefix_nil.mp h) (List.cons_ne_nil _ _)
  · obtain ⟨hr, hrest⟩ := List.cons_prefix_cons.mp h
    exact ⟨r, reads, rfl, hr, hrest⟩

namespace Conn

variable {σ : Type} {L : Llhttp σ} {app : App} {config : AppConfig}

/-! ## Rules -/

/-- A property of connections that every operation of a dispatch preserves. -/
structure Preserved (P : Conn σ → Prop) : Prop where
  phase : ∀ {c} (phase : Phase), P c → P { c with phase := phase }
  enter : ∀ {c} (stage : Stage), P c → P (c.record (.enter stage))
  upgrade : ∀ {c} (bytes : Bytes), c.streamRef = true → P c → P (c.record (.upgrade bytes))
  handOver : ∀ {c}, c.streamRef = true → P c → P { c.record .handOver with streamRef := false }

/-- A dispatch that has stopped, with `P` for the connection and `Q` for the outcome: suspended,
concluded, or lost in an empty function object. -/
inductive Settled (P : Conn σ → Prop) (Q : Bool → Except Exn Response → Prop) (keepAlive : Bool) :
    Conn σ → Prop
  | awaiting {c k} (hphase : c.phase = .awaiting keepAlive k) (hP : P c)
      (hwp : ∀ answer, (k answer).wp streamContract Q c.streamRef) : Settled P Q keepAlive c
  | upgrading {c k} (hphase : c.phase = .upgrading keepAlive k) (hP : P c)
      (hwp : ∀ success, (k success).wp streamContract Q c.streamRef) : Settled P Q keepAlive c
  | concluded {c r} (hP : P c) (hQ : Q c.streamRef r) :
      Settled P Q keepAlive (c.conclude keepAlive r)
  | undefined {c} (hphase : c.phase = .undefined) (hP : P c) : Settled P Q keepAlive c

variable {P : Conn σ → Prop} {Q : Bool → Except Exn Response → Prop}

/-- **Forwards.** -/
theorem settled_advance (hP : Preserved P) {keepAlive : Bool} {task : Task Response} :
    ∀ {c : Conn σ}, P c → task.wp streamContract Q c.streamRef →
    Settled P Q keepAlive (c.advance keepAlive task) := by
  induction task with
  | ret res => exact fun hc hwp ↦ .concluded hc hwp
  | raise e => exact fun hc hwp ↦ .concluded hc hwp
  | call op k ih =>
    rintro c hc ⟨hreq, hk⟩
    rcases op with _ | stage | _ | bytes | _ | _
    · exact .awaiting rfl (hP.phase _ hc) fun answer ↦ hk answer _ rfl
    · exact ih () (hP.enter stage hc) (hk () _ rfl)
    · exact ih _ hc (hk c.streamRef _ ⟨rfl, rfl⟩)
    · exact .upgrading rfl (hP.phase _ (hP.upgrade bytes hreq hc)) fun success ↦ hk success _ rfl
    · exact ih () (hP.handOver hreq hc) (hk () _ rfl)
    · exact .undefined rfl (hP.phase _ hc)

/-- **Backwards.** -/
theorem exists_run_of_ends (hP : Preserved P) {keepAlive : Bool} {task : Task Response} :
    ∀ {c : Conn σ}, P c → task.wp streamContract (fun _ _ ↦ True) c.streamRef →
    ∀ {present r}, task.Ends streamContract c.streamRef present r →
    ∃ es c₁, run L app config (c.advance keepAlive task) es = some (c₁.conclude keepAlive r) ∧
      P c₁ ∧ c₁.streamRef = present ∧ ∀ e ∈ es, e.isReply := by
  -- where the task is suspended, the answer on its path is the next event of the run
  have hcons : ∀ {c c' : Conn σ} {e : Event} {present : Bool} {r : Except Exn Response},
      e.isReply → step L app config c e = some c' →
      (∃ es c₁, run L app config c' es = some (c₁.conclude keepAlive r) ∧ P c₁ ∧
        c₁.streamRef = present ∧ ∀ e ∈ es, e.isReply) →
      ∃ es c₁, run L app config c es = some (c₁.conclude keepAlive r) ∧ P c₁ ∧
        c₁.streamRef = present ∧ ∀ e ∈ es, e.isReply := by
    rintro c c' e present r he hstep ⟨es, c₁, hrun, hc₁, hpresent, hall⟩
    refine ⟨e :: es, c₁, Machine.run_cons_eq_some_iff.mpr ⟨c', hstep, hrun⟩, hc₁, hpresent, ?_⟩
    exact List.forall_mem_cons.mpr ⟨he, hall⟩
  induction task with
  | ret res =>
    intro c hc _ present r hend
    cases hend
    exact ⟨[], c, rfl, hc, rfl, fun e he ↦ absurd he List.not_mem_nil⟩
  | raise x =>
    intro c hc _ present r hend
    cases hend
    exact ⟨[], c, rfl, hc, rfl, fun e he ↦ absurd he List.not_mem_nil⟩
  | call op k ih =>
    rintro c hc ⟨hreq, hk⟩ present r hend
    cases hend with
    | @call _ _ _ x _ _ _ hx hend =>
      rcases op with _ | stage | _ | bytes | _ | _
      · obtain rfl := hx
        exact hcons (e := .awaited x) trivial rfl
          (ih x (c := { c with phase := .awaiting keepAlive k }) (hP.phase _ hc) (hk x _ rfl) hend)
      · obtain rfl := hx
        exact ih () (c := c.record (.enter stage)) (hP.enter stage hc) (hk () _ rfl) hend
      · obtain ⟨rfl, rfl⟩ := hx
        exact ih _ hc (hk c.streamRef _ ⟨rfl, rfl⟩) hend
      · obtain rfl := hx
        exact hcons (e := .writeDone x) trivial rfl
          (ih x (c := { c.record (.upgrade bytes) with phase := .upgrading keepAlive k })
            (hP.phase _ (hP.upgrade bytes hreq hc)) (hk x _ rfl) hend)
      · obtain rfl := hx
        exact ih () (c := { c.record .handOver with streamRef := false }) (hP.handOver hreq hc)
          (hk () _ rfl) hend
      · exact Empty.elim x

end Conn

end Aevox
