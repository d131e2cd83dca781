import Mathlib.Data.List.Nodup
import Mathlib.Logic.Function.Basic

/-!
# Coroutine frames on a heap

A coroutine that awaits another one is suspended until that one has a result. There are two ways of
saying so. On a *call stack* an await is a call: the awaited coroutine runs on top of its callers,
and its result goes to the one below. On a *heap* every coroutine has a frame with a promise, which
holds the result and the handle of the frame to resume; control goes from frame to frame by that
handle, and a frame lives until it is destroyed.

The heap implements the call stack. A part of the heap that belongs to one chain of awaits
(`Active`) stands for one stack, each transfer is one step of the stack, and it touches the frames
of its own chain and a fresh one only (`resumed`). What is not touched stays what it is
(`Active.congr`), so that chains on one heap do not disturb each other.

What a coroutine does is given by a transition function, so that it may loop forever. Result types
are codes, because a frame does not know the type of the frame that awaits it.
-/

namespace Frames

/-- What a coroutine of type `a` does next. -/
inductive Action (Op : Type) (Ans : Op → Type) (ε : Type) {Ty : Type} (El : Ty → Type)
    (Code : Ty → Type) (a : Ty) where
  | ret (v : El a)
  | raise (e : ε)
  | call (op : Op) (k : Ans op → Code a)
  | await {b : Ty} (sub : Code b) (k : Except ε (El b) → Code a)

/-- Coroutines over the operations `Op`, by what they do next. -/
structure Program (Op : Type) (Ans : Op → Type) (ε : Type) {Ty : Type} (El : Ty → Type) where
  Code : Ty → Type
  next : ∀ {a}, Code a → Action Op Ans ε El Code a

variable {Op : Type} {Ans : Op → Type} {ε : Type} {Ty : Type} {El : Ty → Type}
  {P : Program Op Ans ε El} {root : Ty}

/-! ## The call stack -/

/-- Who awaits the result of a coroutine of type `a`, down to the one that nobody awaits. -/
inductive Callers (P : Program Op Ans ε El) (root : Ty) : Ty → Type
  | none : Callers P root root
  | caller {a b : Ty} (k : Except ε (El b) → P.Code a) (rest : Callers P root a) : Callers P root b

/-- How many there are. -/
def Callers.depth : ∀ {a : Ty}, Callers P root a → ℕ
  | _, none => 0
  | _, caller _ rest => rest.depth + 1

/-- A coroutine with its callers; it runs, or its result is being passed down. -/
inductive Stack (P : Program Op Ans ε El) (root : Ty)
  | running {a : Ty} (code : P.Code a) (callers : Callers P root a)
  | returning {a : Ty} (r : Except ε (El a)) (callers : Callers P root a)

namespace Stack

/-- Where an action leads without the environment. -/
def act {a : Ty} (callers : Callers P root a) : Action Op Ans ε El P.Code a → Option (Stack P root)
  | .ret v => some (returning (.ok v) callers)
  | .raise e => some (returning (.error e) callers)
  | .call _ _ => none
  | .await sub k => some (running sub (.caller k callers))

/-- What happens without the environment. -/
def step : Stack P root → Option (Stack P root)
  | running code callers => act callers (P.next code)
  | returning _ .none => none
  | returning r (.caller k rest) => some (running (k r) rest)

/-- The operation the stack is suspended in returns. -/
def answer [DecidableEq Op] : Stack P root → (Σ op, Ans op) → Option (Stack P root)
  | running code callers, ⟨op, x⟩ =>
    match P.next code with
    | .call op' k => if h : op = op' then some (running (k (h ▸ x)) callers) else none
    | _ => none
  | returning _ _, _ => none

/-- A step of the stack, or an answer. -/
def move [DecidableEq Op] (st : Stack P root) : Option (Σ op, Ans op) → Option (Stack P root)
  | none => st.step
  | some x => st.answer x

theorem answer_running [DecidableEq Op] {a : Ty} {code : P.Code a} {callers : Callers P root a}
    {x : Σ op, Ans op} {st : Stack P root} (h : (running code callers).answer x = some st) :
    ∃ k, P.next code = .call x.1 k ∧ st = running (k x.2) callers := by
  obtain ⟨op, x⟩ := x
  rw [answer] at h
  rcases hnext : P.next code with v | e | ⟨op', k⟩ | ⟨sub, k⟩
  all_goals
    rw [hnext] at h
    dsimp only at h
  · exact absurd h (Option.some_ne_none _).symm
  · exact absurd h (Option.some_ne_none _).symm
  · split at h
    · rename_i hop
      subst hop
      exact ⟨k, rfl, (Option.some.inj h).symm⟩
    · exact absurd h (Option.some_ne_none _).symm
  · exact absurd h (Option.some_ne_none _).symm

/-- The stack is suspended in an operation. -/
def Issues (st : Stack P root) (op : Op) : Prop :=
  ∃ (a : Ty) (code : P.Code a) (callers : Callers P root a) (k : Ans op → P.Code a),
    st = running code callers ∧ P.next code = .call op k

/-- How many coroutines the stack consists of. -/
def depth : Stack P root → ℕ
  | running _ callers => callers.depth + 1
  | returning _ callers => callers.depth + 1

/-- The coroutine that nobody awaits has ended. -/
def Ended (st : Stack P root) (r : Except ε (El root)) : Prop := st = returning r .none

end Stack

/-! ## The heap -/

/-- Where a coroutine is, as its frame says. -/
inductive Status (P : Program Op Ans ε El) (a : Ty) where
  | body (code : P.Code a)
  /-- In `co_await` of the coroutine in another frame. -/
  | awaiting {b : Ty} (child : ℕ) (k : Except ε (El b) → P.Code a)
  /-- At its final suspension point; the promise holds the result. -/
  | finished (r : Except ε (El a))

/-- A coroutine frame. One without a continuation belongs to a coroutine that nobody awaits. -/
structure Frame (P : Program Op Ans ε El) where
  ty : Ty
  status : Status P ty
  continuation : Option ℕ

/-- The frames by their handles. -/
structure Heap (P : Program Op Ans ε El) where
  frames : ℕ → Option (Frame P)
  fresh : ℕ

/-- What resuming a handle leads to. -/
inductive Outcome (Op : Type) (ε : Type) where
  /-- Another handle is resumed. -/
  | transfer (h : ℕ)
  /-- An operation has been started. -/
  | suspend (op : Op)
  /-- The coroutine that nobody awaits has ended and its frame is gone. -/
  | finish
  /-- It has ended in an exception. -/
  | terminate (e : ε)
  /-- The handle, or one that is read, is not that of a coroutine in the right place. -/
  | undefined

namespace Heap

/-- A frame is written. -/
def set (H : Heap P) (h : ℕ) (frame : Frame P) : Heap P :=
  { H with frames := Function.update H.frames h (some frame) }

def destroy (H : Heap P) (h : ℕ) : Heap P :=
  { H with frames := Function.update H.frames h none }

/-- A frame for a coroutine that has not begun. -/
def create {a : Ty} (H : Heap P) (code : P.Code a) (continuation : Option ℕ) : Heap P where
  frames := Function.update H.frames H.fresh (some ⟨a, .body code, continuation⟩)
  fresh := H.fresh + 1

/-- The coroutine ends with `r`. -/
def conclude {a : Ty} (H : Heap P) (h : ℕ) (continuation : Option ℕ) :
    Except ε (El a) → Heap P × Outcome Op ε
  | r =>
    match continuation with
    | some p => (H.set h ⟨a, .finished r, some p⟩, .transfer p)
    | none =>
      match r with
      | .ok _ => (H.destroy h, .finish)
      | .error e => (H, .terminate e)

/-- A coroutine runs until control leaves it. -/
def resume [DecidableEq Ty] (H : Heap P) (h : ℕ) : Heap P × Outcome Op ε :=
  match H.frames h with
  | none => (H, .undefined)
  | some ⟨a, .body code, continuation⟩ =>
    match P.next code with
    | .ret v => H.conclude h continuation (.ok v : Except ε (El a))
    | .raise e => H.conclude h continuation (.error e : Except ε (El a))
    | .call op _ => (H, .suspend op)
    | .await sub k =>
      ((H.create sub (some h)).set h ⟨a, .awaiting H.fresh k, continuation⟩, .transfer H.fresh)
  | some ⟨a, .awaiting (b := b) child k, continuation⟩ =>
    match H.frames child with
    | some ⟨b', .finished r, _⟩ =>
      -- the task is a temporary of the full expression, which destroys it
      if e : b' = b then
        ((H.destroy child).set h ⟨a, .body (k (e ▸ r)), continuation⟩, .transfer h)
      else (H, .undefined)
    | _ => (H, .undefined)
  | some ⟨_, .finished _, _⟩ => (H, .undefined)

/-- The operation a frame is suspended in returns. -/
def answer [DecidableEq Op] (H : Heap P) (h : ℕ) : (Σ op, Ans op) → Option (Heap P)
  | ⟨op, x⟩ =>
    match H.frames h with
    | some ⟨a, .body code, continuation⟩ =>
      match P.next code with
      | .call op' k =>
        if e : op = op' then some (H.set h ⟨a, .body (k (e ▸ x)), continuation⟩) else none
      | _ => none
    | _ => none

variable (H : Heap P) {h n : ℕ}

@[simp] theorem frames_set_self (frame : Frame P) : (H.set h frame).frames h = some frame :=
  Function.update_self _ _ _

theorem frames_set_of_ne (hn : n ≠ h) (frame : Frame P) :
    (H.set h frame).frames n = H.frames n := Function.update_of_ne hn _ _

@[simp] theorem frames_destroy_self : (H.destroy h).frames h = none := Function.update_self _ _ _

theorem frames_destroy_of_ne (hn : n ≠ h) : (H.destroy h).frames n = H.frames n :=
  Function.update_of_ne hn _ _

@[simp] theorem frames_create_self {a : Ty} (code : P.Code a) (continuation : Option ℕ) :
    (H.create code continuation).frames H.fresh = some ⟨a, .body code, continuation⟩ :=
  Function.update_self _ _ _

theorem frames_create_of_ne {a : Ty} (hn : n ≠ H.fresh) (code : P.Code a)
    (continuation : Option ℕ) : (H.create code continuation).frames n = H.frames n :=
  Function.update_of_ne hn _ _

@[simp] theorem fresh_set (frame : Frame P) : (H.set h frame).fresh = H.fresh := rfl

@[simp] theorem fresh_destroy : (H.destroy h).fresh = H.fresh := rfl

@[simp] theorem fresh_create {a : Ty} (code : P.Code a) (continuation : Option ℕ) :
    (H.create code continuation).fresh = H.fresh + 1 := rfl

end Heap

/-! ## Chains of awaits -/

/-- The frames that await the result of `child`, innermost first, are those of `callers`. -/
inductive Waits (H : Heap P) (root : Ty) :
    Option ℕ → ℕ → (a : Ty) → List ℕ → Callers P root a → Prop
  | none {child : ℕ} : Waits H root none child root [] .none
  | caller {a b : Ty} {h child : ℕ} {k : Except ε (El b) → P.Code a} {continuation : Option ℕ}
      {hs : List ℕ} {callers : Callers P root a}
      (hframe : H.frames h = some ⟨a, .awaiting child k, continuation⟩)
      (hrest : Waits H root continuation h a hs callers) :
      Waits H root (some h) child b (h :: hs) (.caller k callers)

/-- Resuming `h` continues the stack; the frames of the chain are the ones listed. -/
inductive Active (H : Heap P) (root : Ty) : ℕ → List ℕ → Stack P root → Prop
  | body {a : Ty} {h : ℕ} {code : P.Code a} {continuation : Option ℕ} {hs : List ℕ}
      {callers : Callers P root a}
      (hframe : H.frames h = some ⟨a, .body code, continuation⟩)
      (hrest : Waits H root continuation h a hs callers) :
      Active H root h (h :: hs) (.running code callers)
  /-- The awaited coroutine has ended, and its frame still exists. -/
  | returned {a b : Ty} {h child : ℕ} {k : Except ε (El b) → P.Code a} {r : Except ε (El b)}
      {continuation : Option ℕ} {hs : List ℕ} {callers : Callers P root a}
      (hframe : H.frames h = some ⟨a, .awaiting child k, continuation⟩)
      (hchild : H.frames child = some ⟨b, .finished r, some h⟩)
      (hrest : Waits H root continuation h a hs callers) :
      Active H root h (child :: h :: hs) (.returning r (.caller k callers))

theorem Waits.congr {H H' : Heap P} {continuation : Option ℕ} {child : ℕ} {a : Ty} {hs : List ℕ}
    {callers : Callers P root a} (hw : Waits H root continuation child a hs callers)
    (hsame : ∀ n ∈ hs, H'.frames n = H.frames n) :
    Waits H' root continuation child a hs callers := by
  induction hw with
  | none => exact .none
  | caller hframe _ ih =>
    obtain ⟨hhead, htail⟩ := List.forall_mem_cons.mp hsame
    exact .caller (hhead.trans hframe) (ih htail)

/-- **Framing.** A chain depends on its own frames only. -/
theorem Active.congr {H H' : Heap P} {h : ℕ} {hs : List ℕ} {st : Stack P root}
    (hact : Active H root h hs st) (hsame : ∀ n ∈ hs, H'.frames n = H.frames n) :
    Active H' root h hs st := by
  cases hact with
  | body hframe hrest =>
    obtain ⟨hhead, htail⟩ := List.forall_mem_cons.mp hsame
    exact .body (hhead.trans hframe) (hrest.congr htail)
  | returned hframe hchild hrest =>
    obtain ⟨hhead, htail⟩ := List.forall_mem_cons.mp hsame
    obtain ⟨hnext, htail⟩ := List.forall_mem_cons.mp htail
    exact .returned (hnext.trans hframe) (hhead.trans hchild) (hrest.congr htail)

theorem Waits.length {H : Heap P} {continuation : Option ℕ} {child : ℕ} {a : Ty} {hs : List ℕ}
    {callers : Callers P root a} (hw : Waits H root continuation child a hs callers) :
    hs.length = callers.depth := by
  induction hw with
  | none => rfl
  | caller _ _ ih => rw [List.length_cons, ih, Callers.depth]

theorem Active.length {H : Heap P} {h : ℕ} {hs : List ℕ} {st : Stack P root}
    (hact : Active H root h hs st) : hs.length = st.depth := by
  cases hact with
  | body _ hrest => rw [List.length_cons, hrest.length, Stack.depth]
  | returned _ _ hrest =>
    rw [List.length_cons, List.length_cons, hrest.length, Stack.depth, Callers.depth]

theorem Waits.isSome {H : Heap P} {continuation : Option ℕ} {child : ℕ} {a : Ty} {hs : List ℕ}
    {callers : Callers P root a} (hw : Waits H root continuation child a hs callers) :
    ∀ n ∈ hs, (H.frames n).isSome := by
  induction hw with
  | none => exact fun n hn ↦ absurd hn List.not_mem_nil
  | caller hframe _ ih =>
    refine List.forall_mem_cons.mpr ⟨?_, ih⟩
    rw [hframe]
    rfl

theorem Active.mem {H : Heap P} {h : ℕ} {hs : List ℕ} {st : Stack P root}
    (hact : Active H root h hs st) : h ∈ hs := by
  cases hact with
  | body => exact List.mem_cons_self
  | returned => exact List.mem_cons_of_mem _ List.mem_cons_self

theorem Active.isSome {H : Heap P} {h : ℕ} {hs : List ℕ} {st : Stack P root}
    (hact : Active H root h hs st) : ∀ n ∈ hs, (H.frames n).isSome := by
  cases hact with
  | body hframe hrest =>
    refine List.forall_mem_cons.mpr ⟨?_, hrest.isSome⟩
    rw [hframe]
    rfl
  | returned hframe hchild hrest =>
    refine List.forall_mem_cons.mpr ⟨?_, List.forall_mem_cons.mpr ⟨?_, hrest.isSome⟩⟩
    · rw [hchild]
      rfl
    · rw [hframe]
      rfl

/-! ## What a transfer does -/

/-- From the frames `hs` to the frames `hs'`: those of the old ones that are left over and, if any,
the fresh one; nothing else changes. -/
structure Local (H H' : Heap P) (hs hs' : List ℕ) : Prop where
  /-- A frame of the new ones is an old one or fresh. -/
  mem : ∀ n ∈ hs', n ∈ hs ∨ n = H.fresh
  nodup : hs'.Nodup
  /-- What left the chain is gone. -/
  gone : ∀ n ∈ hs, n ∉ hs' → H'.frames n = none
  same : ∀ n, n ∉ hs → n ∉ hs' → H'.frames n = H.frames n
  fresh_le : H.fresh ≤ H'.fresh
  lt_fresh : ∀ n ∈ hs', n < H'.fresh

/-- One transfer of control within a chain, as the call stack sees it. -/
inductive Resumed (H : Heap P) (hs : List ℕ) (st : Stack P root) : Heap P × Outcome Op ε → Prop
  | transfer {H' : Heap P} {h' : ℕ} {hs' : List ℕ} {st' : Stack P root} (hstep : st.step = some st')
      (hact : Active H' root h' hs' st') (hlocal : Local H H' hs hs') :
      Resumed H hs st (H', .transfer h')
  | suspend {op : Op} (hissues : st.Issues op) : Resumed H hs st (H, .suspend op)
  | finish {H' : Heap P} {v : El root} {st' : Stack P root} (hstep : st.step = some st')
      (hended : st'.Ended (.ok v)) (hlocal : Local H H' hs []) :
      Resumed H hs st (H', .finish)
  | terminate {e : ε} {st' : Stack P root} (hstep : st.step = some st')
      (hended : st'.Ended (.error e)) : Resumed H hs st (H, .terminate e)

section Chain

variable {H : Heap P} {h : ℕ} {hs : List ℕ} {st : Stack P root}

theorem resumed_conclude {a : Ty} {code : P.Code a} {continuation : Option ℕ}
    {callers : Callers P root a} (hframe : H.frames h = some ⟨a, .body code, continuation⟩)
    (hrest : Waits H root continuation h a hs callers) (hnodup : (h :: hs).Nodup)
    (hlt : ∀ n ∈ h :: hs, n < H.fresh) {r : Except ε (El a)}
    (hstep : (Stack.running code callers).step = some (.returning r callers)) :
    Resumed H (h :: hs) (.running code callers) (H.conclude h continuation r) := by
  obtain ⟨hnot, -⟩ := List.nodup_cons.mp hnodup
  cases hrest with
  | none =>
    rcases r with e | v
    · exact .terminate hstep rfl
    · refine .finish hstep rfl ⟨fun n hn ↦ absurd hn List.not_mem_nil, List.nodup_nil, ?_, ?_,
        Nat.le_refl _, fun n hn ↦ absurd hn List.not_mem_nil⟩
      · rintro n hn -
        rw [List.mem_singleton.mp hn]
        exact H.frames_destroy_self
      · exact fun n hn _ ↦
        H.frames_destroy_of_ne (ne_of_mem_of_not_mem List.mem_cons_self hn).symm
  | @caller _ _ p _ _ _ hs' _ hparent hrest' =>
    have hp : p ≠ h := ne_of_mem_of_not_mem List.mem_cons_self hnot
    refine .transfer hstep (.returned ?_ (H.frames_set_self _) (hrest'.congr fun n hn ↦ ?_))
      ⟨fun n hn ↦ .inl hn, hnodup, fun n hn hn' ↦ absurd hn hn', ?_, Nat.le_refl _, hlt⟩
    · rw [H.frames_set_of_ne hp, hparent]
    · exact H.frames_set_of_ne (ne_of_mem_of_not_mem (List.mem_cons_of_mem p hn) hnot) _
    · exact fun n hn _ ↦ H.frames_set_of_ne (ne_of_mem_of_not_mem List.mem_cons_self hn).symm _

/-- An await puts a fresh frame on top of the chain. -/
theorem resumed_await {a b : Ty} {code : P.Code a} {continuation : Option ℕ}
    {callers : Callers P root a} (hrest : Waits H root continuation h a hs callers)
    (hnodup : (h :: hs).Nodup) (hlt : ∀ n ∈ h :: hs, n < H.fresh) {sub : P.Code b}
    {k : Except ε (El b) → P.Code a}
    (hstep : (Stack.running code callers).step = some (.running sub (.caller k callers))) :
    Resumed H (h :: hs) (.running code callers)
      ((H.create sub (some h)).set h ⟨a, .awaiting H.fresh k, continuation⟩,
        .transfer H.fresh) := by
  obtain ⟨hnot, -⟩ := List.nodup_cons.mp hnodup
  have hne : ∀ n ∈ h :: hs, n ≠ H.fresh := fun n hn ↦ Nat.ne_of_lt (hlt n hn)
  have hfresh : H.fresh ≠ h := (hne h List.mem_cons_self).symm
  have hbody : ((H.create sub (some h)).set h ⟨a, .awaiting H.fresh k, continuation⟩).frames
      H.fresh = some ⟨b, .body sub, some h⟩ := by
    rw [Heap.frames_set_of_ne _ hfresh, H.frames_create_self]
  refine .transfer hstep (.body hbody
    (.caller ((H.create sub (some h)).frames_set_self _) (hrest.congr fun n hn ↦ ?_)))
    ⟨?_, ?_, ?_, ?_, Nat.le_succ _, ?_⟩
  · rw [Heap.frames_set_of_ne _ (ne_of_mem_of_not_mem hn hnot),
      H.frames_create_of_ne (hne n (List.mem_cons_of_mem h hn))]
  · intro n hn
    exact (List.mem_cons.mp hn).symm
  · exact List.nodup_cons.mpr ⟨fun hmem ↦ hne _ hmem rfl, hnodup⟩
  · exact fun n hn hn' ↦ absurd (List.mem_cons_of_mem _ hn) hn'
  · intro n hn hn'
    rw [Heap.frames_set_of_ne _ (ne_of_mem_of_not_mem List.mem_cons_self hn).symm,
      H.frames_create_of_ne (ne_of_mem_of_not_mem List.mem_cons_self hn').symm]
  · intro n hn
    rcases List.mem_cons.mp hn with rfl | hn
    · exact Nat.lt_succ_self _
    · exact Nat.lt_succ_of_lt (hlt n hn)

variable [DecidableEq Ty]

/-- **The heap implements the call stack**, one transfer at a time. -/
theorem resumed (hact : Active H root h hs st) (hnodup : hs.Nodup)
    (hlt : ∀ n ∈ hs, n < H.fresh) : Resumed H hs st (H.resume h) := by
  cases hact with
  | body hframe hrest =>
    rename_i a code continuation hs callers
    rw [Heap.resume, hframe]
    dsimp only
    rcases hnext : P.next code with v | e | ⟨op, k⟩ | ⟨sub, k⟩
    · refine resumed_conclude hframe hrest hnodup hlt ?_
      rw [Stack.step, hnext, Stack.act]
    · refine resumed_conclude hframe hrest hnodup hlt ?_
      rw [Stack.step, hnext, Stack.act]
    · exact .suspend ⟨a, code, callers, k, rfl, hnext⟩
    · refine resumed_await hrest hnodup hlt ?_
      rw [Stack.step, hnext, Stack.act]
  | returned hframe hchild hrest =>
    rename_i a b child k r continuation hs callers
    obtain ⟨hnot, hnodup'⟩ := List.nodup_cons.mp hnodup
    obtain ⟨hnot', -⟩ := List.nodup_cons.mp hnodup'
    have hch : h ≠ child := ne_of_mem_of_not_mem List.mem_cons_self hnot
    rw [Heap.resume, hframe]
    dsimp only
    rw [hchild]
    dsimp only
    rw [dif_pos rfl]
    refine .transfer rfl (.body (Heap.frames_set_self _ _) (hrest.congr fun n hn ↦ ?_))
      ⟨fun n hn ↦ .inl (List.mem_cons_of_mem _ hn), hnodup', ?_, ?_, Nat.le_refl _,
        fun n hn ↦ hlt n (List.mem_cons_of_mem _ hn)⟩
    · rw [Heap.frames_set_of_ne _ (ne_of_mem_of_not_mem hn hnot'),
        H.frames_destroy_of_ne (ne_of_mem_of_not_mem (List.mem_cons_of_mem _ hn) hnot)]
    · intro n hn hn'
      rcases List.mem_cons.mp hn with rfl | hn
      · rw [Heap.frames_set_of_ne _ hch.symm, H.frames_destroy_self]
      · exact absurd hn hn'
    · intro n hn _
      have hh : h ∈ child :: h :: hs := List.mem_cons_of_mem _ List.mem_cons_self
      rw [Heap.frames_set_of_ne _ (ne_of_mem_of_not_mem hh hn).symm,
        H.frames_destroy_of_ne (ne_of_mem_of_not_mem List.mem_cons_self hn).symm]

end Chain

/-! ## Beginning, and going on after an operation -/

theorem active_create (H : Heap P) (code : P.Code root) :
    Active (H.create code none) root H.fresh [H.fresh] (.running code .none) ∧
      Local H (H.create code none) [] [H.fresh] := by
  refine ⟨.body (H.frames_create_self code none) .none, ?_, List.nodup_singleton _, ?_, ?_,
    Nat.le_succ _, ?_⟩
  · exact fun n hn ↦ .inr (List.mem_singleton.mp hn)
  · exact fun n hn ↦ absurd hn List.not_mem_nil
  · exact fun n _ hn ↦ H.frames_create_of_ne (fun hnf ↦ hn (List.mem_singleton.mpr hnf)) _ _
  · intro n hn
    rw [List.mem_singleton.mp hn]
    exact Nat.lt_succ_self _

/-- The answer to an operation goes to the frame that issued it, as it goes to the stack. -/
theorem exists_answer [DecidableEq Op] {H : Heap P} {h : ℕ} {hs : List ℕ} {st : Stack P root}
    (hact : Active H root h hs st) (hnodup : hs.Nodup) (hlt : ∀ n ∈ hs, n < H.fresh) {op : Op}
    (hissues : st.Issues op) (x : Ans op) :
    ∃ H' st', H.answer h ⟨op, x⟩ = some H' ∧ st.answer ⟨op, x⟩ = some st' ∧
      Active H' root h hs st' ∧ Local H H' hs hs := by
  obtain ⟨a, code, callers, k, rfl, hnext⟩ := hissues
  cases hact with
  | body hframe hrest =>
    rename_i continuation hs
    obtain ⟨hnot, -⟩ := List.nodup_cons.mp hnodup
    refine ⟨H.set h ⟨a, .body (k x), continuation⟩, .running (k x) callers, ?_, ?_,
      .body (H.frames_set_self _) (hrest.congr fun n hn ↦ ?_), ?_⟩
    · rw [Heap.answer, hframe]
      dsimp only
      rw [hnext]
      exact dif_pos rfl
    · rw [Stack.answer, hnext]
      exact dif_pos rfl
    · exact H.frames_set_of_ne (ne_of_mem_of_not_mem hn hnot) _
    · exact ⟨fun n hn ↦ .inl hn, hnodup, fun n hn hn' ↦ absurd hn hn',
        fun n hn _ ↦ H.frames_set_of_ne (ne_of_mem_of_not_mem List.mem_cons_self hn).symm _,
        Nat.le_refl _, hlt⟩

theorem issues_of_answer [DecidableEq Op] {H H' : Heap P} {h : ℕ} {hs : List ℕ}
    {st : Stack P root} (hact : Active H root h hs st) {x : Σ op, Ans op}
    (hanswer : H.answer h x = some H') : st.Issues x.1 := by
  obtain ⟨op, x⟩ := x
  cases hact with
  | body hframe hrest =>
    rename_i a code continuation hs callers
    rw [Heap.answer, hframe] at hanswer
    dsimp only at hanswer
    rcases hnext : P.next code with v | e | ⟨op', k⟩ | ⟨sub, k⟩
    all_goals
      rw [hnext] at hanswer
      dsimp only at hanswer
    · exact absurd hanswer (Option.some_ne_none _).symm
    · exact absurd hanswer (Option.some_ne_none _).symm
    · split at hanswer
      · rename_i hop
        subst hop
        exact ⟨a, code, callers, k, rfl, hnext⟩
      · exact absurd hanswer (Option.some_ne_none _).symm
    · exact absurd hanswer (Option.some_ne_none _).symm
  | returned hframe hchild hrest =>
    rw [Heap.answer, hframe] at hanswer
    exact absurd hanswer (Option.some_ne_none _).symm

end Frames
