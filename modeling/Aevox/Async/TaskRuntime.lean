import Aevox.Library.Nested
import Mathlib.Algebra.BigOperators.Group.List.Basic

/-!
# The coroutine runtime

Connections, accept loops' handlers and sub-tasks are coroutines of `FireAndForget` type, which
nobody awaits; what they `co_await` are `Task`s. `Task<T>` is lazy, keeps its result in its promise
and transfers control to its continuation at the end; this is the heap of `Frames`. The pool threads
run what is posted to their context: the call of a coroutine, the resumption of a handle, or the
function of a `pool(fn)`.

A thread posts through its thread-local bridges, which the executor sets in the threads of the I/O
pool only. An awaitable captures the bridge it will be resumed through when it suspends, and asserts
that there is one.

What is posted to a context may be taken in any order, and the threads take their steps in any
order. An awaitable of a socket or a timer completes at any time; that a timer's handler resumes the
coroutine itself instead of posting it is a completion followed by a take.
-/

namespace Aevox

open Frames

/-! ## Threads -/

namespace TaskRuntime

/-- `io_ctx_` and `cpu_pool_` -/
inductive Context where
  | io
  | cpu
  deriving DecidableEq

/-- The threads of the two pools. -/
inductive Thread (τ κ : Type) where
  | io (i : τ)
  | cpu (i : κ)
  deriving DecidableEq

/-- Where a thread takes its jobs from. -/
def Thread.context {τ κ : Type} : Thread τ κ → Context
  | .io _ => .io
  | .cpu _ => .cpu

/-- `tl_post_to_io` of a thread, if it is set. -/
def tlPostToIo {τ κ : Type} : Thread τ κ → Option Context
  | .io _ => some .io
  | .cpu _ => none

/-- `tl_post_to_cpu`, which is bound to the I/O pool when there is no CPU pool. -/
def tlPostToCpu {τ κ : Type} (cpuPool : Bool) : Thread τ κ → Option Context
  | .io _ => some (if cpuPool then .cpu else .io)
  | .cpu _ => none

/-- How an operation is carried out. -/
inductive Kind where
  /-- On the spot; the coroutine is not suspended. -/
  | immediate
  /-- `PoolAwaitable` -/
  | pool
  /-- By a socket or a timer. -/
  | external
  deriving DecidableEq

/-- What has been posted on behalf of a coroutine. -/
inductive Job where
  | start
  | resume (h : ℕ)
  /-- The function of a `PoolAwaitable`, with the bridge it has captured. -/
  | work (h : ℕ) (resume : Context)
  deriving DecidableEq

/-- Where a coroutine that has not ended is. -/
inductive Place (τ κ : Type) where
  | posted (context : Context) (job : Job)
  | running (h : ℕ) (t : Thread τ κ)
  /-- A thread runs the function of a `PoolAwaitable`. -/
  | working (h : ℕ) (t : Thread τ κ) (resume : Context)
  /-- An asynchronous operation has been started. -/
  | external (h : ℕ) (resume : Context)
  deriving DecidableEq

/-- The thread that is occupied. -/
def Place.thread {τ κ : Type} : Place τ κ → Option (Thread τ κ)
  | .posted _ _ => none
  | .running _ t => some t
  | .working _ t _ => some t
  | .external _ _ => none

/-- Whether the coroutine has a frame. -/
def Place.begun {τ κ : Type} : Place τ κ → Bool
  | .posted _ .start => false
  | _ => true

/-- A coroutine that has been called and has not ended, by its root. -/
structure Activity (ρ τ κ : Type) where
  root : ρ
  place : Place τ κ

/-- Whether the process still runs. -/
inductive Fate (ε : Type) where
  | running
  /-- `std::terminate`, from the `unhandled_exception` of a `FireAndForget`. -/
  | terminated (e : ε)
  | undefined

end TaskRuntime

open TaskRuntime

/-- The pools with their coroutines; which coroutines have been called and what they have been
answered is history. -/
structure TaskRuntime {Op : Type} {Ans : Op → Type} {ε Ty : Type} {El : Ty → Type}
    (P : Program Op Ans ε El) (ρ τ κ : Type) where
  heap : Heap P
  activities : List (Activity ρ τ κ)
  fate : Fate ε
  called : List ρ
  answered : List (ρ × Σ op, Ans op)

namespace TaskRuntime

/-- What can happen next; activities are named by their position. -/
inductive Event (Op : Type) (Ans : Op → Type) (ρ τ κ : Type) where
  /-- The call of a coroutine is posted to the I/O pool. -/
  | call (r : ρ)
  /-- An idle thread takes a job. -/
  | take (i : ℕ) (t : Thread τ κ)
  /-- A running coroutine goes on to the next transfer, suspension or end. -/
  | step (i : ℕ)
  /-- An operation that does not suspend is carried out. -/
  | reply (i : ℕ) (x : Σ op, Ans op)
  /-- A function of `pool` returns, or an asynchronous operation completes. -/
  | complete (i : ℕ) (x : Σ op, Ans op)

variable {Op : Type} {Ans : Op → Type} {ε Ty : Type} {El : Ty → Type} {P : Program Op Ans ε El}
  {ρ τ κ : Type}

/-- The activity at position `i` gets to another place. -/
def moveTo (s : TaskRuntime P ρ τ κ) (i : ℕ) (r : ρ) (place : Place τ κ) : TaskRuntime P ρ τ κ :=
  { s with activities := s.activities.set i ⟨r, place⟩ }

/-- `await_suspend`, on thread `t`: what is posted or started; `none` when a bridge is missing. -/
def suspend (cpuPool : Bool) (h : ℕ) (t : Thread τ κ) : Kind → Option (Place τ κ)
  | .immediate => none
  | .pool =>
    match tlPostToCpu cpuPool t, tlPostToIo t with
    | some context, some resume => some (.posted context (.work h resume))
    | _, _ => none
  | .external => (tlPostToIo t).map (.external h)

/-- The coroutine `r` is answered, and goes on at `place`. -/
def answer [DecidableEq Op] (s : TaskRuntime P ρ τ κ) (i : ℕ) (r : ρ) (h : ℕ) (x : Σ op, Ans op)
    (place : Place τ κ) : Option (TaskRuntime P ρ τ κ) :=
  (s.heap.answer h x).map fun heap ↦
    { s.moveTo i r place with heap, answered := s.answered ++ [(r, x)] }

/-- No coroutine and no function occupies the thread. -/
def Idle (s : TaskRuntime P ρ τ κ) (t : Thread τ κ) : Prop :=
  ∀ a ∈ s.activities, a.place.thread ≠ some t

section Steps

variable [DecidableEq Op] [DecidableEq Ty] [DecidableEq ρ] [DecidableEq τ] [DecidableEq κ]

instance (s : TaskRuntime P ρ τ κ) (t : Thread τ κ) : Decidable (s.Idle t) :=
  inferInstanceAs (Decidable (∀ a ∈ s.activities, a.place.thread ≠ some t))

variable {root : Ty} (cpuPool : Bool) (kind : Op → Kind) (body : ρ → P.Code root)

/-- A thread takes a job. -/
def take (s : TaskRuntime P ρ τ κ) (i : ℕ) (r : ρ) (t : Thread τ κ) : Job → TaskRuntime P ρ τ κ
  | .start =>
    { s.moveTo i r (.running s.heap.fresh t) with heap := s.heap.create (body r) none }
  | .resume h => s.moveTo i r (.running h t)
  | .work h resume => s.moveTo i r (.working h t resume)

/-- A coroutine that runs on `t` goes on. -/
def proceed (s : TaskRuntime P ρ τ κ) (i : ℕ) (r : ρ) (h : ℕ) (t : Thread τ κ) :
    Option (TaskRuntime P ρ τ κ) :=
  match s.heap.resume h with
  | (heap, .transfer h') => some { s.moveTo i r (.running h' t) with heap }
  | (heap, .suspend op) =>
    if kind op = .immediate then none
    else
      match suspend cpuPool h t (kind op) with
      | some place => some { s.moveTo i r place with heap }
      | none => some { s with heap, fate := .undefined }
  | (heap, .finish) => some { s with heap, activities := s.activities.eraseIdx i }
  | (heap, .terminate e) => some { s with heap, fate := .terminated e }
  | (heap, .undefined) => some { s with heap, fate := .undefined }

def step (s : TaskRuntime P ρ τ κ) (e : Event Op Ans ρ τ κ) : Option (TaskRuntime P ρ τ κ) :=
  match s.fate with
  | .running =>
    match e with
    | .call r =>
      if r ∈ s.called then none
      else
        some { s with
          activities := s.activities ++ [⟨r, .posted .io .start⟩]
          called := s.called ++ [r] }
    | .take i t =>
      match s.activities[i]? with
      | some ⟨r, .posted context job⟩ =>
        if t.context = context ∧ s.Idle t then some (s.take body i r t job) else none
      | _ => none
    | .step i =>
      match s.activities[i]? with
      | some ⟨r, .running h t⟩ => s.proceed cpuPool kind i r h t
      | _ => none
    | .reply i x =>
      match s.activities[i]? with
      | some ⟨r, .running h t⟩ =>
        if kind x.1 = .immediate then s.answer i r h x (.running h t) else none
      | _ => none
    | .complete i x =>
      match s.activities[i]? with
      | some ⟨r, .working h _ resume⟩ => s.answer i r h x (.posted resume (.resume h))
      | some ⟨r, .external h resume⟩ => s.answer i r h x (.posted resume (.resume h))
      | _ => none
  | _ => none

/-- Nothing has been called. -/
def start : TaskRuntime P ρ τ κ where
  heap := ⟨fun _ ↦ none, 0⟩
  activities := []
  fate := .running
  called := []
  answered := []

/-- What the coroutine `r` has been answered. -/
def answersOf (s : TaskRuntime P ρ τ κ) (r : ρ) : List (Σ op, Ans op) :=
  s.answered.filterMap fun e ↦ if e.1 = r then some e.2 else none

end Steps

/-! ## Activities by their roots -/

section Positions

variable {α β : Type} {f : α → β} {l : List α} {i : ℕ} {a b c : α}

theorem mem_eraseIdx_of_nodup (hnodup : (l.map f).Nodup) (ha : l[i]? = some a) :
    b ∈ l.eraseIdx i ↔ b ∈ l ∧ f b ≠ f a := by
  rw [List.mem_eraseIdx_iff_getElem?]
  constructor
  · rintro ⟨j, hji, hj⟩
    refine ⟨List.mem_of_getElem? hj, fun hf ↦ hji ?_⟩
    obtain ⟨hlt, -⟩ := List.getElem?_eq_some_iff.mp hj
    refine (List.getElem?_inj (by rwa [List.length_map]) hnodup).mp ?_
    rw [List.getElem?_map, List.getElem?_map, hj, ha]
    exact congrArg some hf
  · rintro ⟨hb, hf⟩
    obtain ⟨j, hj⟩ := List.mem_iff_getElem?.mp hb
    refine ⟨j, fun hji ↦ hf ?_, hj⟩
    rw [hji, ha] at hj
    rw [Option.some.inj hj]

theorem mem_set_of_nodup (hnodup : (l.map f).Nodup) (ha : l[i]? = some a) (hb : b ∈ l.set i c) :
    b = c ∨ b ∈ l ∧ f b ≠ f a := by
  obtain ⟨j, hj⟩ := List.mem_iff_getElem?.mp hb
  by_cases hij : i = j
  · subst hij
    obtain ⟨hlt, -⟩ := List.getElem?_eq_some_iff.mp ha
    rw [List.getElem?_set_self hlt] at hj
    exact .inl (Option.some.inj hj).symm
  · rw [List.getElem?_set_ne hij] at hj
    refine .inr ((mem_eraseIdx_of_nodup hnodup ha).mp ?_)
    exact List.mem_eraseIdx_iff_getElem?.mpr ⟨j, fun hji ↦ hij hji.symm, hj⟩

theorem map_set_of_eq (ha : l[i]? = some a) (hc : f c = f a) : (l.set i c).map f = l.map f := by
  obtain ⟨hlt, rfl⟩ := List.getElem?_eq_some_iff.mp ha
  have hlt' : i < (l.map f).length := by rwa [List.length_map]
  have hget : f l[i] = (l.map f)[i] := (List.getElem_map f).symm
  rw [List.map_set, hc, hget, List.set_getElem_self hlt']

end Positions

/-! ## The invariant -/

section Invariant

variable {root : Ty} (kind : Op → Kind) (body : ρ → P.Code root)

/-- The call stack of a coroutine that has not begun. -/
def initial (r : ρ) : Stack P root := .running (body r) .none

/-- The place of the coroutine `r`, whose chain and call stack are given. -/
def Placed (heap : Heap P) (r : ρ) (chain : List ℕ) (st : Stack P root) : Place τ κ → Prop
  | .posted context .start => context = .io ∧ chain = [] ∧ st = initial body r
  | .posted context (.resume h) => context = .io ∧ Active heap root h chain st
  | .posted _ (.work h resume) =>
    resume = .io ∧ Active heap root h chain st ∧ ∃ op, st.Issues op ∧ kind op = .pool
  | .running h t => t.context = .io ∧ Active heap root h chain st
  | .working h _ resume =>
    resume = .io ∧ Active heap root h chain st ∧ ∃ op, st.Issues op ∧ kind op = .pool
  | .external h resume =>
    resume = .io ∧ Active heap root h chain st ∧ ∃ op, st.Issues op ∧ kind op = .external

/-- The call stack `st` is what running the coroutine on the answers leads to. -/
def Leads [DecidableEq Op] (r : ρ) (xs : List (Σ op, Ans op)) (st : Stack P root) : Prop :=
  ∃ ds, Machine.run Stack.move (initial body r) ds = some st ∧ ds.reduceOption = xs

/-- Every coroutine has a chain of frames of its own and a call stack, and its one place fits them;
there are no other frames. -/
structure Sound [DecidableEq Op] [DecidableEq ρ] (s : TaskRuntime P ρ τ κ) (chains : ρ → List ℕ)
    (calls : ρ → Stack P root) : Prop where
  nodup : (s.activities.map Activity.root).Nodup
  called : ∀ a ∈ s.activities, a.root ∈ s.called
  placed : ∀ a ∈ s.activities,
    Placed kind body s.heap a.root (chains a.root) (calls a.root) a.place
  empty : ∀ r, r ∉ s.activities.map Activity.root → chains r = []
  ended : ∀ r ∈ s.called, r ∉ s.activities.map Activity.root → ∃ v, (calls r).Ended (.ok v)
  chain_nodup : ∀ r, (chains r).Nodup
  disjoint : ∀ r r' n, n ∈ chains r → n ∈ chains r' → r = r'
  lt_fresh : ∀ r, ∀ n ∈ chains r, n < s.heap.fresh
  owned : ∀ n, (s.heap.frames n).isSome → ∃ r, n ∈ chains r
  answered : ∀ e ∈ s.answered, e.1 ∈ s.called
  leads : ∀ r ∈ s.called, Leads body r (s.answersOf r) (calls r)

/-- The process has behaviour, and if it has been terminated then by a coroutine that ended in an
exception. -/
def Inv [DecidableEq Op] [DecidableEq ρ] (s : TaskRuntime P ρ τ κ) : Prop :=
  (∃ chains calls, Sound kind body s chains calls) ∧
    match s.fate with
    | .running => True
    | .terminated e => ∃ r ∈ s.called, ∃ st, Leads body r (s.answersOf r) st ∧ st.Ended (.error e)
    | .undefined => False

variable {kind body}

theorem Placed.congr {H H' : Heap P} {r : ρ} {chain : List ℕ} {st : Stack P root}
    {place : Place τ κ} (hplaced : Placed kind body H r chain st place)
    (hsame : ∀ n ∈ chain, H'.frames n = H.frames n) : Placed kind body H' r chain st place := by
  rcases place with ⟨context, _ | h | ⟨h, resume⟩⟩ | ⟨h, t⟩ | ⟨h, t, resume⟩ | ⟨h, resume⟩
  · exact hplaced
  · exact ⟨hplaced.1, hplaced.2.congr hsame⟩
  · exact ⟨hplaced.1, hplaced.2.1.congr hsame, hplaced.2.2⟩
  · exact ⟨hplaced.1, hplaced.2.congr hsame⟩
  · exact ⟨hplaced.1, hplaced.2.1.congr hsame, hplaced.2.2⟩
  · exact ⟨hplaced.1, hplaced.2.1.congr hsame, hplaced.2.2⟩

/-- What a coroutine with frames and without them owns. -/
theorem Placed.isSome {H : Heap P} {r : ρ} {chain : List ℕ} {st : Stack P root}
    {place : Place τ κ} (hplaced : Placed kind body H r chain st place) :
    ∀ n ∈ chain, (H.frames n).isSome := by
  rcases place with ⟨context, _ | h | ⟨h, resume⟩⟩ | ⟨h, t⟩ | ⟨h, t, resume⟩ | ⟨h, resume⟩
  · rw [hplaced.2.1]
    exact fun n hn ↦ absurd hn List.not_mem_nil
  · exact hplaced.2.isSome
  · exact hplaced.2.1.isSome
  · exact hplaced.2.isSome
  · exact hplaced.2.1.isSome
  · exact hplaced.2.1.isSome

theorem Placed.length {H : Heap P} {r : ρ} {chain : List ℕ} {st : Stack P root}
    {place : Place τ κ} (hplaced : Placed kind body H r chain st place) :
    chain.length = if place.begun then st.depth else 0 := by
  rcases place with ⟨context, _ | h | ⟨h, resume⟩⟩ | ⟨h, t⟩ | ⟨h, t, resume⟩ | ⟨h, resume⟩
  · rw [hplaced.2.1]
    rfl
  · exact hplaced.2.length
  · exact hplaced.2.1.length
  · exact hplaced.2.length
  · exact hplaced.2.1.length
  · exact hplaced.2.1.length

theorem suspend_of_io (cpuPool : Bool) (kind : Op → Kind) (body : ρ → P.Code root) {h : ℕ}
    {t : Thread τ κ} (ht : t.context = .io) {H : Heap P} (r : ρ) {chain : List ℕ}
    {st : Stack P root} (hact : Active H root h chain st) {op : Op} (hissues : st.Issues op)
    (hkind : kind op ≠ .immediate) :
    ∃ place, suspend cpuPool h t (kind op) = some place ∧ Placed kind body H r chain st place := by
  rcases t with i | i
  · rcases hk : kind op with _ | _ | _
    · exact absurd hk hkind
    · exact ⟨_, rfl, rfl, hact, op, hissues, hk⟩
    · exact ⟨_, rfl, rfl, hact, op, hissues, hk⟩
  · exact absurd ht Context.noConfusion

theorem Leads.append [DecidableEq Op] {r : ρ} {xs ys : List (Σ op, Ans op)} {st st' : Stack P root}
    (h : Leads body r xs st) {ds : List (Option (Σ op, Ans op))}
    (hrun : Machine.run Stack.move st ds = some st') (hds : ds.reduceOption = ys) :
    Leads body r (xs ++ ys) st' := by
  obtain ⟨ds₀, hrun₀, rfl⟩ := h
  refine ⟨ds₀ ++ ds, Machine.run_trans hrun₀ hrun, ?_⟩
  rw [List.reduceOption_append, hds]

theorem Leads.step [DecidableEq Op] {r : ρ} {xs : List (Σ op, Ans op)} {st st' : Stack P root}
    (h : Leads body r xs st) (hstep : st.step = some st') : Leads body r xs st' := by
  have hrun : Machine.run Stack.move st [none] = some st' :=
    (Machine.run_singleton st none).trans hstep
  have happend := h.append hrun rfl
  rwa [List.reduceOption_cons_of_none, List.reduceOption_nil, List.append_nil] at happend

variable [DecidableEq Op] [DecidableEq ρ]

namespace Sound

variable {s s' : TaskRuntime P ρ τ κ} {chains : ρ → List ℕ} {calls : ρ → Stack P root}

theorem local_chains (h : Sound kind body s chains calls) {r : ρ} {H' : Heap P} {hs' : List ℕ}
    (hlocal : Local s.heap H' (chains r) hs') :
    (∀ r', (Function.update chains r hs' r').Nodup) ∧
      (∀ r₁ r₂ n, n ∈ Function.update chains r hs' r₁ → n ∈ Function.update chains r hs' r₂ →
        r₁ = r₂) ∧
      (∀ r', ∀ n ∈ Function.update chains r hs' r', n < H'.fresh) ∧
      (∀ n, (H'.frames n).isSome → ∃ r', n ∈ Function.update chains r hs' r') ∧
      ∀ r' ≠ r, ∀ n ∈ chains r', H'.frames n = s.heap.frames n := by
  -- a frame of another chain is neither an old one of this chain nor the fresh one
  have hapart : ∀ r' ≠ r, ∀ n ∈ chains r', n ∉ hs' := by
    intro r' hr n hn hn'
    rcases hlocal.mem n hn' with hold | rfl
    · exact hr (h.disjoint r' r n hn hold)
    · exact absurd (h.lt_fresh r' _ hn) (Nat.lt_irrefl _)
  refine ⟨fun r' ↦ ?_, fun r₁ r₂ n h₁ h₂ ↦ ?_, fun r' n hn ↦ ?_, fun n hn ↦ ?_, ?_⟩
  · rcases eq_or_ne r' r with rfl | hr
    · rw [Function.update_self]
      exact hlocal.nodup
    · rw [Function.update_of_ne hr]
      exact h.chain_nodup r'
  · by_cases hr₁ : r₁ = r <;> by_cases hr₂ : r₂ = r
    · exact hr₁.trans hr₂.symm
    · rw [hr₁, Function.update_self] at h₁
      rw [Function.update_of_ne hr₂] at h₂
      exact absurd h₁ (hapart r₂ hr₂ n h₂)
    · rw [Function.update_of_ne hr₁] at h₁
      rw [hr₂, Function.update_self] at h₂
      exact absurd h₂ (hapart r₁ hr₁ n h₁)
    · rw [Function.update_of_ne hr₁] at h₁
      rw [Function.update_of_ne hr₂] at h₂
      exact h.disjoint r₁ r₂ n h₁ h₂
  · rcases eq_or_ne r' r with rfl | hr
    · rw [Function.update_self] at hn
      exact hlocal.lt_fresh n hn
    · rw [Function.update_of_ne hr] at hn
      exact Nat.lt_of_lt_of_le (h.lt_fresh r' n hn) hlocal.fresh_le
  · by_cases hn' : n ∈ hs'
    · exact ⟨r, by rwa [Function.update_self]⟩
    · by_cases hold : n ∈ chains r
      · rw [hlocal.gone n hold hn'] at hn
        exact absurd hn Bool.false_ne_true
      · rw [hlocal.same n hold hn'] at hn
        obtain ⟨r', hr'⟩ := h.owned n hn
        have hr : r' ≠ r := fun hr ↦ hold (hr ▸ hr')
        exact ⟨r', by rwa [Function.update_of_ne hr]⟩
  · intro r' hr n hn
    exact hlocal.same n (fun hold ↦ hr (h.disjoint r' r n hn hold)) (hapart r' hr n hn)

omit [DecidableEq Op] in
theorem answersOf_append {r : ρ} {xs : List (Σ op, Ans op)}
    (hanswered : s'.answered = s.answered ++ xs.map (Prod.mk r)) (r' : ρ) :
    s'.answersOf r' = s.answersOf r' ++ if r' = r then xs else [] := by
  rw [answersOf, hanswered, List.filterMap_append, List.filterMap_map]
  refine congrArg _ ?_
  by_cases hr : r' = r
  · rw [if_pos hr, hr]
    simp
  · rw [if_neg hr]
    simp [Ne.symm hr]

theorem move (h : Sound kind body s chains calls) {i : ℕ} {r : ρ} {place : Place τ κ}
    (place' : Place τ κ) {hs' : List ℕ} {st' : Stack P root} (ds : List (Option (Σ op, Ans op)))
    (hi : s.activities[i]? = some ⟨r, place⟩) (hlocal : Local s.heap s'.heap (chains r) hs')
    (hplaced : Placed kind body s'.heap r hs' st' place')
    (hrun : Machine.run Stack.move (calls r) ds = some st')
    (hactivities : s'.activities = s.activities.set i ⟨r, place'⟩)
    (hcalled : s'.called = s.called)
    (hanswered : s'.answered = s.answered ++ ds.reduceOption.map (Prod.mk r)) :
    Sound kind body s' (Function.update chains r hs') (Function.update calls r st') := by
  have hroots : s'.activities.map Activity.root = s.activities.map Activity.root := by
    rw [hactivities]
    exact map_set_of_eq hi rfl
  have hmem : r ∈ s.activities.map Activity.root :=
    List.mem_map_of_mem (List.mem_of_getElem? hi)
  obtain ⟨hnodup, hdisjoint, hlt, howned, hsame⟩ := h.local_chains hlocal
  refine ⟨hroots ▸ h.nodup, ?_, ?_, ?_, ?_, hnodup, hdisjoint, hlt, howned, ?_, ?_⟩
  · intro a ha
    have hroot : a.root ∈ s'.activities.map Activity.root := List.mem_map_of_mem ha
    rw [hroots] at hroot
    obtain ⟨b, hb, hab⟩ := List.mem_map.mp hroot
    exact hcalled ▸ hab ▸ h.called b hb
  · intro a ha
    rw [hactivities] at ha
    rcases mem_set_of_nodup h.nodup hi ha with rfl | ⟨ha, hne⟩
    · rw [Function.update_self, Function.update_self]
      exact hplaced
    · rw [Function.update_of_ne hne, Function.update_of_ne hne]
      exact (h.placed a ha).congr (hsame a.root hne)
  · intro r' hr'
    rw [hroots] at hr'
    rw [Function.update_of_ne (ne_of_mem_of_not_mem hmem hr').symm]
    exact h.empty r' hr'
  · intro r' hr' hnot
    rw [hroots] at hnot
    rw [Function.update_of_ne (ne_of_mem_of_not_mem hmem hnot).symm]
    exact h.ended r' (hcalled ▸ hr') hnot
  · intro e he
    rw [hcalled]
    rw [hanswered] at he
    rcases List.mem_append.mp he with he | he
    · exact h.answered e he
    · obtain ⟨x, -, rfl⟩ := List.mem_map.mp he
      exact h.called _ (List.mem_of_getElem? hi)
  · intro r' hr'
    rw [answersOf_append hanswered]
    by_cases hr : r' = r
    · subst hr
      rw [if_pos rfl, Function.update_self]
      exact (h.leads r' (hcalled ▸ hr')).append hrun rfl
    · rw [if_neg hr, Function.update_of_ne hr, List.append_nil]
      exact h.leads r' (hcalled ▸ hr')

theorem finish (h : Sound kind body s chains calls) {i : ℕ} {r : ρ} {place : Place τ κ}
    {st' : Stack P root} {v : El root} (hi : s.activities[i]? = some ⟨r, place⟩)
    (hlocal : Local s.heap s'.heap (chains r) []) (hstep : (calls r).step = some st')
    (hended : st'.Ended (.ok v)) (hactivities : s'.activities = s.activities.eraseIdx i)
    (hcalled : s'.called = s.called) (hanswered : s'.answered = s.answered) :
    Sound kind body s' (Function.update chains r []) (Function.update calls r st') := by
  have hmem : ∀ a, a ∈ s'.activities ↔ a ∈ s.activities ∧ a.root ≠ r := by
    intro a
    rw [hactivities]
    exact mem_eraseIdx_of_nodup h.nodup hi
  have hroots : ∀ r' ≠ r, r' ∉ s'.activities.map Activity.root →
      r' ∉ s.activities.map Activity.root := by
    intro r' hr' hnot hin
    obtain ⟨a, ha, rfl⟩ := List.mem_map.mp hin
    exact hnot (List.mem_map_of_mem ((hmem a).mpr ⟨ha, hr'⟩))
  obtain ⟨hnodup, hdisjoint, hlt, howned, hsame⟩ := h.local_chains hlocal
  refine ⟨?_, ?_, ?_, ?_, ?_, hnodup, hdisjoint, hlt, howned, ?_, ?_⟩
  · rw [hactivities]
    exact h.nodup.sublist ((List.eraseIdx_sublist _ _).map _)
  · exact fun a ha ↦ hcalled ▸ h.called a ((hmem a).mp ha).1
  · intro a ha
    obtain ⟨ha, hne⟩ := (hmem a).mp ha
    rw [Function.update_of_ne hne, Function.update_of_ne hne]
    exact (h.placed a ha).congr (hsame a.root hne)
  · intro r' hnot
    by_cases hr : r' = r
    · rw [hr, Function.update_self]
    · rw [Function.update_of_ne hr]
      exact h.empty r' (hroots r' hr hnot)
  · intro r' hr' hnot
    by_cases hr : r' = r
    · rw [hr, Function.update_self]
      exact ⟨v, hended⟩
    · rw [Function.update_of_ne hr]
      exact h.ended r' (hcalled ▸ hr') (hroots r' hr hnot)
  · intro e he
    rw [hcalled]
    exact h.answered e (hanswered ▸ he)
  · intro r' hr'
    have hanswers : s'.answersOf r' = s.answersOf r' := by rw [answersOf, hanswered, answersOf]
    rw [hanswers]
    by_cases hr : r' = r
    · subst hr
      rw [Function.update_self]
      exact (h.leads r' (hcalled ▸ hr')).step hstep
    · rw [Function.update_of_ne hr]
      exact h.leads r' (hcalled ▸ hr')

theorem call (h : Sound kind body s chains calls) {r : ρ} (hr : r ∉ s.called) :
    Sound kind body
      { s with
        activities := s.activities ++ [⟨r, .posted .io .start⟩]
        called := s.called ++ [r] }
      chains (Function.update calls r (initial body r)) := by
  have hnot : r ∉ s.activities.map Activity.root := by
    intro hin
    obtain ⟨a, ha, rfl⟩ := List.mem_map.mp hin
    exact hr (h.called a ha)
  have hanswers : s.answersOf r = [] := by
    refine List.filterMap_eq_nil_iff.mpr fun e he ↦ if_neg ?_
    exact ne_of_mem_of_not_mem (h.answered e he) hr
  refine ⟨?_, ?_, ?_, ?_, ?_, h.chain_nodup, h.disjoint, h.lt_fresh, h.owned,
    fun e he ↦ List.mem_append_left _ (h.answered e he), ?_⟩
  · rw [List.map_append]
    exact h.nodup.append (List.nodup_singleton _) (List.disjoint_singleton.mpr hnot)
  · intro a ha
    rcases List.mem_append.mp ha with ha | ha
    · exact List.mem_append_left _ (h.called a ha)
    · rw [List.mem_singleton.mp ha]
      exact List.mem_append_right _ (List.mem_singleton_self r)
  · intro a ha
    rcases List.mem_append.mp ha with ha | ha
    · rw [Function.update_of_ne (ne_of_mem_of_not_mem (h.called a ha) hr)]
      exact h.placed a ha
    · rw [List.mem_singleton.mp ha, Function.update_self]
      exact ⟨rfl, h.empty r hnot, rfl⟩
  · intro r' hr'
    rw [List.map_append] at hr'
    exact h.empty r' fun hin ↦ hr' (List.mem_append_left _ hin)
  · intro r' hr' hnot'
    rw [List.map_append] at hnot'
    have hne : r' ≠ r := fun hrr ↦ hnot' (hrr ▸ List.mem_append_right _ (List.mem_singleton_self _))
    rw [Function.update_of_ne hne]
    refine h.ended r' ?_ fun hin ↦ hnot' (List.mem_append_left _ hin)
    exact (List.mem_append.mp hr').resolve_right fun hin ↦ hne (List.mem_singleton.mp hin)
  · intro r' hr'
    by_cases hrr : r' = r
    · subst hrr
      rw [Function.update_self]
      exact ⟨[], rfl, hanswers.symm⟩
    · rw [Function.update_of_ne hrr]
      refine h.leads r' ?_
      exact (List.mem_append.mp hr').resolve_right fun hin ↦ hrr (List.mem_singleton.mp hin)

theorem placed_at (h : Sound kind body s chains calls) {i : ℕ} {r : ρ} {place : Place τ κ}
    (hi : s.activities[i]? = some ⟨r, place⟩) :
    Placed kind body s.heap r (chains r) (calls r) place :=
  h.placed _ (List.mem_of_getElem? hi)

/-- Nothing happens on the heap. -/
theorem local_self (h : Sound kind body s chains calls) (r : ρ) :
    Local s.heap s.heap (chains r) (chains r) :=
  ⟨fun _ hn ↦ .inl hn, h.chain_nodup r, fun _ hn hn' ↦ absurd hn hn', fun _ _ _ ↦ rfl,
    Nat.le_refl _, h.lt_fresh r⟩

theorem answer (h : Sound kind body s chains calls) {i : ℕ} {r : ρ} {place place' : Place τ κ}
    {m : ℕ} {x : Σ op, Ans op} (hi : s.activities[i]? = some ⟨r, place⟩)
    (hact : Active s.heap root m (chains r) (calls r))
    (hplaced : ∀ H' st', Active H' root m (chains r) st' →
      Placed kind body H' r (chains r) st' place')
    (hs' : s.answer i r m x place' = some s') :
    ∃ chains' calls', Sound kind body s' chains' calls' := by
  obtain ⟨H', hanswer, rfl⟩ := Option.map_eq_some_iff.mp hs'
  obtain ⟨op, x⟩ := x
  obtain ⟨H'', st', hanswer', hst', hact', hlocal⟩ := exists_answer hact (h.chain_nodup r)
    (h.lt_fresh r) (issues_of_answer hact hanswer) x
  obtain rfl := Option.some.inj (hanswer.symm.trans hanswer')
  refine ⟨_, _, h.move place' [some ⟨op, x⟩] hi hlocal (hplaced H' st' hact') ?_ rfl rfl rfl⟩
  exact (Machine.run_singleton _ _).trans hst'

theorem isSome_answer (h : Sound kind body s chains calls) {i : ℕ} {r : ρ} {m : ℕ}
    {place : Place τ κ} (hact : Active s.heap root m (chains r) (calls r)) {op : Op}
    (hissues : (calls r).Issues op) (x : Ans op) : (s.answer i r m ⟨op, x⟩ place).isSome := by
  obtain ⟨H', st', hanswer, -⟩ := exists_answer hact (h.chain_nodup r) (h.lt_fresh r) hissues x
  rw [TaskRuntime.answer, hanswer]
  rfl

end Sound

/-! ## Steps keep the invariant -/

theorem inv_of_running {s : TaskRuntime P ρ τ κ} (hfate : s.fate = .running)
    (hs : ∃ chains calls, Sound kind body s chains calls) : Inv kind body s := by
  refine ⟨hs, ?_⟩
  rw [hfate]
  trivial

theorem inv_start : Inv kind body (start : TaskRuntime P ρ τ κ) := by
  refine inv_of_running rfl ⟨fun _ ↦ [], fun r ↦ initial body r, ?_⟩
  refine ⟨List.nodup_nil, ?_, ?_, fun _ _ ↦ rfl, ?_, fun _ ↦ List.nodup_nil, ?_, ?_, ?_, ?_, ?_⟩
  · exact fun a ha ↦ absurd ha List.not_mem_nil
  · exact fun a ha ↦ absurd ha List.not_mem_nil
  · exact fun r hr ↦ absurd hr List.not_mem_nil
  · exact fun r r' n hn ↦ absurd hn List.not_mem_nil
  · exact fun r n hn ↦ absurd hn List.not_mem_nil
  · exact fun n hn ↦ absurd hn Bool.false_ne_true
  · exact fun e he ↦ absurd he List.not_mem_nil
  · exact fun r hr ↦ absurd hr List.not_mem_nil

namespace Sound

variable {s s' : TaskRuntime P ρ τ κ} {chains : ρ → List ℕ} {calls : ρ → Stack P root}

theorem take (h : Sound kind body s chains calls) {i : ℕ} {r : ρ} {job : Job} {t : Thread τ κ}
    (hi : s.activities[i]? = some ⟨r, .posted t.context job⟩) :
    ∃ chains' calls', Sound kind body (s.take body i r t job) chains' calls' := by
  have hplaced := h.placed_at hi
  rcases job with _ | m | ⟨m, resume⟩
  · obtain ⟨hio, hempty, hst⟩ := hplaced
    obtain ⟨hact, hlocal⟩ := active_create s.heap (body r)
    have hrun : Machine.run Stack.move (calls r) [] = some (initial body r) := congrArg some hst
    exact ⟨_, _, h.move (.running s.heap.fresh t) [] hi (hempty ▸ hlocal) ⟨hio, hact⟩ hrun rfl rfl
      (List.append_nil _).symm⟩
  · exact ⟨_, _, h.move (.running m t) [] hi (h.local_self r) hplaced rfl rfl rfl
      (List.append_nil _).symm⟩
  · exact ⟨_, _, h.move (.working m t resume) [] hi (h.local_self r) hplaced rfl rfl rfl
      (List.append_nil _).symm⟩

variable [DecidableEq Ty] {cpuPool : Bool}

theorem proceed (h : Sound kind body s chains calls) (hfate : s.fate = .running) {i : ℕ} {r : ρ}
    {m : ℕ} {t : Thread τ κ} (hi : s.activities[i]? = some ⟨r, .running m t⟩)
    (hs' : s.proceed cpuPool kind i r m t = some s') : Inv kind body s' := by
  obtain ⟨hio, hact⟩ := h.placed_at hi
  have hresumed := resumed hact (h.chain_nodup r) (h.lt_fresh r)
  rw [TaskRuntime.proceed] at hs'
  generalize (s.heap.resume m : Heap P × Outcome Op ε) = out at hresumed hs'
  cases hresumed with
  | transfer hstep hact' hlocal =>
    rename_i H' m' hs₁ st'
    dsimp only at hs'
    obtain rfl := Option.some.inj hs'
    have hrun : Machine.run Stack.move (calls r) [none] = some st' :=
      (Machine.run_singleton _ _).trans hstep
    exact inv_of_running hfate ⟨_, _, h.move (.running m' t) [none] hi hlocal ⟨hio, hact'⟩ hrun rfl
      rfl (List.append_nil _).symm⟩
  | suspend hissues =>
    dsimp only at hs'
    split at hs'
    · exact absurd hs' (Option.some_ne_none _).symm
    · rename_i hkind
      obtain ⟨place, hsuspend, hplaced⟩ := suspend_of_io cpuPool kind body hio r hact
        hissues hkind
      rw [hsuspend] at hs'
      dsimp only at hs'
      obtain rfl := Option.some.inj hs'
      exact inv_of_running hfate ⟨_, _, h.move place [] hi (h.local_self r) hplaced rfl rfl rfl
        (List.append_nil _).symm⟩
  | finish hstep hended hlocal =>
    dsimp only at hs'
    obtain rfl := Option.some.inj hs'
    exact inv_of_running hfate ⟨_, _, h.finish hi hlocal hstep hended rfl rfl rfl⟩
  | terminate hstep hended =>
    dsimp only at hs'
    obtain rfl := Option.some.inj hs'
    have hcalled := h.called _ (List.mem_of_getElem? hi)
    refine ⟨⟨chains, calls, ⟨h.nodup, h.called, h.placed, h.empty, h.ended, h.chain_nodup,
      h.disjoint, h.lt_fresh, h.owned, h.answered, h.leads⟩⟩, ?_⟩
    exact ⟨r, hcalled, _, (h.leads r hcalled).step hstep, hended⟩

theorem goes_on (h : Sound kind body s chains calls) {i : ℕ} {r : ρ} {m : ℕ} {t : Thread τ κ}
    (hio : t.context = .io) (hact : Active s.heap root m (chains r) (calls r)) :
    (s.proceed cpuPool kind i r m t).isSome ∨ ∃ op, kind op = .immediate ∧ ∀ x : Ans op,
      (if kind op = .immediate then s.answer i r m ⟨op, x⟩ (.running m t) else none).isSome := by
  have hresumed := resumed hact (h.chain_nodup r) (h.lt_fresh r)
  rw [TaskRuntime.proceed]
  generalize (s.heap.resume m : Heap P × Outcome Op ε) = out at hresumed
  cases hresumed with
  | transfer => exact .inl rfl
  | finish => exact .inl rfl
  | terminate => exact .inl rfl
  | @suspend op hissues =>
    by_cases hkind : kind op = .immediate
    · refine .inr ⟨op, hkind, fun x ↦ ?_⟩
      rw [if_pos hkind]
      exact h.isSome_answer hact hissues x
    · refine .inl ?_
      obtain ⟨place, hsuspend, -⟩ := suspend_of_io cpuPool kind body hio r hact hissues hkind
      dsimp only
      rw [if_neg hkind, hsuspend]
      rfl

end Sound

variable [DecidableEq Ty] {cpuPool : Bool}

/-- What a step can be. -/
inductive Moves (cpuPool : Bool) (kind : Op → Kind) (body : ρ → P.Code root)
    (s : TaskRuntime P ρ τ κ) : TaskRuntime P ρ τ κ → Prop
  | call {r : ρ} (hr : r ∉ s.called) :
      Moves cpuPool kind body s
        { s with
          activities := s.activities ++ [⟨r, .posted .io .start⟩]
          called := s.called ++ [r] }
  | take {i : ℕ} {r : ρ} {job : Job} {t : Thread τ κ}
      (hi : s.activities[i]? = some ⟨r, .posted t.context job⟩) (hidle : s.Idle t) :
      Moves cpuPool kind body s (s.take body i r t job)
  | proceed {s' : TaskRuntime P ρ τ κ} {i : ℕ} {r : ρ} {h : ℕ} {t : Thread τ κ}
      (hi : s.activities[i]? = some ⟨r, .running h t⟩)
      (hs' : s.proceed cpuPool kind i r h t = some s') : Moves cpuPool kind body s s'
  | reply {s' : TaskRuntime P ρ τ κ} {i : ℕ} {r : ρ} {h : ℕ} {t : Thread τ κ} {x : Σ op, Ans op}
      (hi : s.activities[i]? = some ⟨r, .running h t⟩)
      (hs' : s.answer i r h x (.running h t) = some s') : Moves cpuPool kind body s s'
  | complete {s' : TaskRuntime P ρ τ κ} {i : ℕ} {r : ρ} {h : ℕ} {place : Place τ κ}
      {resume : Context} {x : Σ op, Ans op} (hi : s.activities[i]? = some ⟨r, place⟩)
      (hplace : (∃ t, place = .working h t resume) ∨ place = .external h resume)
      (hs' : s.answer i r h x (.posted resume (.resume h)) = some s') : Moves cpuPool kind body s s'

theorem inv_of_moves {s s' : TaskRuntime P ρ τ κ} (hs : Inv kind body s) (hfate : s.fate = .running)
    (hmoves : Moves cpuPool kind body s s') : Inv kind body s' := by
  obtain ⟨⟨chains, calls, h⟩, -⟩ := hs
  cases hmoves with
  | call hr => exact inv_of_running hfate ⟨_, _, h.call hr⟩
  | @take i r job t hi hidle =>
    refine inv_of_running ?_ (h.take hi)
    rcases job with _ | m | ⟨m, resume⟩ <;> exact hfate
  | proceed hi hs' => exact h.proceed hfate hi hs'
  | reply hi hs' =>
    obtain ⟨hio, hact⟩ := h.placed_at hi
    refine inv_of_running ?_ (h.answer hi hact ?_ hs')
    · obtain ⟨heap, -, rfl⟩ := Option.map_eq_some_iff.mp hs'
      exact hfate
    · exact fun H' st' hact' ↦ ⟨hio, hact'⟩
  | complete hi hplace hs' =>
    have hplaced := h.placed_at hi
    refine inv_of_running ?_ ?_
    · obtain ⟨heap, -, rfl⟩ := Option.map_eq_some_iff.mp hs'
      exact hfate
    · obtain ⟨t, rfl⟩ | rfl := hplace
      · obtain ⟨hresume, hact, -⟩ := hplaced
        refine h.answer hi hact ?_ hs'
        exact fun H' st' hact' ↦ ⟨hresume, hact'⟩
      · obtain ⟨hresume, hact, -⟩ := hplaced
        refine h.answer hi hact ?_ hs'
        exact fun H' st' hact' ↦ ⟨hresume, hact'⟩

variable [DecidableEq τ] [DecidableEq κ]

theorem moves_of_step {s s' : TaskRuntime P ρ τ κ} {e : Event Op Ans ρ τ κ}
    (hstep : s.step cpuPool kind body e = some s') :
    s.fate = .running ∧ Moves cpuPool kind body s s' := by
  unfold step at hstep
  split at hstep
  · rename_i hfate
    refine ⟨hfate, ?_⟩
    rcases e with r | ⟨i, t⟩ | i | ⟨i, x⟩ | ⟨i, x⟩ <;> dsimp only at hstep
    · split at hstep
      · exact absurd hstep (Option.some_ne_none _).symm
      · rw [← Option.some.inj hstep]
        exact .call ‹_›
    · split at hstep
      · rename_i hi
        split at hstep
        · rename_i hguard
          obtain ⟨rfl, hidle⟩ := hguard
          rw [← Option.some.inj hstep]
          exact .take hi hidle
        · exact absurd hstep (Option.some_ne_none _).symm
      · exact absurd hstep (Option.some_ne_none _).symm
    · split at hstep
      · exact .proceed ‹_› hstep
      · exact absurd hstep (Option.some_ne_none _).symm
    · split at hstep
      · split at hstep
        · exact .reply ‹_› hstep
        · exact absurd hstep (Option.some_ne_none _).symm
      · exact absurd hstep (Option.some_ne_none _).symm
    · split at hstep
      · exact .complete ‹_› (.inl ⟨_, rfl⟩) hstep
      · exact .complete ‹_› (.inr rfl) hstep
      · exact absurd hstep (Option.some_ne_none _).symm
  · exact absurd hstep (Option.some_ne_none _).symm

/-! ## Runs -/

/-- Nested coroutines whose operations are named by how they are carried out. -/
abbrev kinds : Program Kind (fun _ ↦ ℕ) Unit fun _ : Unit ↦ ℕ := Nested.program _ _ _ _

/-- A coroutine that awaits the result of `pool` and then an operation of its own. -/
def offload (n : ℕ) : kinds.Code () :=
  let pool : Nested Kind (fun _ ↦ ℕ) Unit (fun _ : Unit ↦ ℕ) () :=
    .call .pool fun x ↦ .ret x
  .await pool fun
    | .ok x => .call .external fun y ↦ .ret (n + x + y)
    | .error e => .raise e

/-- Two of them, of which one gets the result of `pool` on another thread than it began on. -/
def offloads : List (Event Kind (fun _ ↦ ℕ) ℕ Bool Unit) :=
  [.call 3, .take 0 (.io true), .step 0, .step 0, .call 5, .take 0 (.cpu ()), .take 1 (.io true),
    .complete 0 ⟨.pool, 7⟩, .take 0 (.io false), .step 0, .step 0, .step 0]

variable {es : List (Event Op Ans ρ τ κ)} {s : TaskRuntime P ρ τ κ}

theorem inv_of_run (hrun : Machine.run (step cpuPool kind body) start es = some s) :
    Inv kind body s := by
  refine Machine.run_invariant ?_ inv_start hrun
  intro s e s' hs hstep
  obtain ⟨hfate, hmoves⟩ := moves_of_step hstep
  exact inv_of_moves hs hfate hmoves

/-- **Whatever the order of events, each coroutine does what it does on a call stack of its own.**
It returns when that is empty; and only an exception that leaves it ends the process. -/
theorem follows_calls (hrun : Machine.run (step cpuPool kind body) start es = some s) :
    (∀ r ∈ s.called, ∃ st, Leads body r (s.answersOf r) st ∧
      (r ∉ s.activities.map Activity.root → ∃ v, st.Ended (.ok v))) ∧
    ∀ e, s.fate = .terminated e →
      ∃ r ∈ s.called, ∃ st, Leads body r (s.answersOf r) st ∧ st.Ended (.error e) := by
  obtain ⟨⟨chains, calls, h⟩, hfate⟩ := inv_of_run hrun
  refine ⟨fun r hr ↦ ⟨calls r, h.leads r hr, h.ended r hr⟩, fun e he ↦ ?_⟩
  rw [he] at hfate
  exact hfate

theorem follows_calls_offloads : ∃ s,
    Machine.run (step true id offload) start offloads = some s ∧ s.answersOf 3 = [⟨.pool, 7⟩] ∧
      (∀ r ∈ s.called, ∃ st, Leads offload r (s.answersOf r) st ∧
        (r ∉ s.activities.map Activity.root → ∃ v, st.Ended (.ok v))) ∧
      ∀ e, s.fate = .terminated e →
        ∃ r ∈ s.called, ∃ st, Leads offload r (s.answersOf r) st ∧ st.Ended (.error e) :=
  have hrun : Machine.run (step true id offload) start offloads = some _ := rfl
  ⟨_, hrun, rfl, follows_calls hrun⟩

/-- **No handle is resumed that is not that of a suspended coroutine**, no bridge is missing, and
the code of coroutines runs on the threads of the I/O pool only. -/
theorem never_undefined (hrun : Machine.run (step cpuPool kind body) start es = some s) :
    s.fate ≠ .undefined ∧ ∀ a ∈ s.activities, ∀ h t, a.place = .running h t →
      t.context = .io ∧ (s.heap.frames h).isSome := by
  obtain ⟨⟨chains, calls, hsound⟩, hfate⟩ := inv_of_run hrun
  refine ⟨fun h ↦ ?_, fun a ha h t hplace ↦ ?_⟩
  · rw [h] at hfate
    exact hfate
  · have hplaced := hsound.placed a ha
    rw [hplace] at hplaced
    exact ⟨hplaced.1, hplaced.2.isSome h hplaced.2.mem⟩

theorem never_undefined_offloads : ∃ s,
    Machine.run (step true id offload) start offloads = some s ∧ s.fate ≠ .undefined ∧
      ∀ a ∈ s.activities, ∀ h t, a.place = .running h t →
        t.context = .io ∧ (s.heap.frames h).isSome :=
  have hrun : Machine.run (step true id offload) start offloads = some _ := rfl
  ⟨_, hrun, never_undefined hrun⟩

/-- **A coroutine never gets stuck.** Whatever has been posted can be taken by an idle thread of its
context, a running coroutine goes on or asks for an operation that answers on the spot, and any
answer to the operation that has been started is accepted. -/
theorem can_go_on (hrun : Machine.run (step cpuPool kind body) start es = some s)
    (hfate : s.fate = .running) {i : ℕ} {a : Activity ρ τ κ} (hi : s.activities[i]? = some a) :
    match a.place with
    | .posted context _ =>
      ∀ t, t.context = context → s.Idle t → (s.step cpuPool kind body (.take i t)).isSome
    | .running _ _ => (s.step cpuPool kind body (.step i)).isSome ∨
      ∃ op, kind op = .immediate ∧ ∀ x, (s.step cpuPool kind body (.reply i ⟨op, x⟩)).isSome
    | .working _ _ _ =>
      ∃ op, kind op = .pool ∧ ∀ x, (s.step cpuPool kind body (.complete i ⟨op, x⟩)).isSome
    | .external _ _ =>
      ∃ op, kind op = .external ∧ ∀ x, (s.step cpuPool kind body (.complete i ⟨op, x⟩)).isSome := by
  obtain ⟨⟨chains, calls, hsound⟩, -⟩ := inv_of_run hrun
  obtain ⟨r, place⟩ := a
  have hplaced := hsound.placed_at hi
  rcases place with ⟨context, job⟩ | ⟨h, t⟩ | ⟨h, t, resume⟩ | ⟨h, resume⟩ <;>
    dsimp only [TaskRuntime.step]
  · rintro t rfl hidle
    rw [hfate, hi]
    dsimp only
    rw [if_pos ⟨rfl, hidle⟩]
    rfl
  · obtain ⟨hio, hact⟩ := hplaced
    rw [hfate, hi]
    exact hsound.goes_on hio hact
  · obtain ⟨-, hact, op, hissues, hkind⟩ := hplaced
    refine ⟨op, hkind, fun x ↦ ?_⟩
    rw [hfate, hi]
    exact hsound.isSome_answer hact hissues x
  · obtain ⟨-, hact, op, hissues, hkind⟩ := hplaced
    refine ⟨op, hkind, fun x ↦ ?_⟩
    rw [hfate, hi]
    exact hsound.isSome_answer hact hissues x

theorem can_go_on_offloads : ∃ s, Machine.run (step true id offload) start offloads = some s ∧
    s.activities[0]? = some ⟨3, .external 0 .io⟩ ∧
      ∃ op, id op = Kind.external ∧
        ∀ x, (s.step true id offload (.complete 0 ⟨op, x⟩)).isSome :=
  have hrun : Machine.run (step true id offload) start offloads = some _ := rfl
  ⟨_, hrun, rfl, can_go_on hrun rfl (a := ⟨3, .external 0 .io⟩) rfl⟩

end Invariant

end TaskRuntime

end Aevox
