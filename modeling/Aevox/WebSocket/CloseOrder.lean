import Aevox.WebSocket.Delivery

/-!
# What follows the Close frame

A Close frame goes to the front of the queue, in front of data frames that wait there, and whoever
sends a message or publishes one tests `closed_`, which is not set until the client has answered.
So frames follow the Close frame in two ways: they were in the queue when it was pushed, or they
are pushed later. If neither happens, nothing follows it (`nothing_follows_close`).
-/

namespace Aevox

open Coroutine

namespace Draining

open Session

variable {ι : Type} [DecidableEq ι] {maxPayload : ℕ}

/-- A Close frame may only be the last frame of the list. -/
def ClosesLast (l : List Bytes) : Prop :=
  ∀ before frame after, l = before ++ frame :: after → carries .close frame → after = []

/-- No Close frame has been pushed yet. -/
def Unclosed (s : Draining ι) : Prop := ∀ frame ∈ s.session.entered, carries .close frame = false

/-- The closure's next access pushes the frame. -/
def Pushes (s : Draining ι) (frame : Bytes) : Prop :=
  s.task = .pushing frame ∨ s.task = .entered (.priority frame)

/-- No frame is pushed after a Close frame, and a Close frame only onto an empty queue. -/
def Parting (s : Draining ι) (e : Event ι) : Prop :=
  e = .strand → ∀ frame, s.Pushes frame →
    s.Unclosed ∧ (carries .close frame → s.session.sendQueue = [])

omit [DecidableEq ι] in
theorem closesLast_of_not_mem {l : List Bytes} (h : ∀ frame ∈ l, carries .close frame = false) :
    ClosesLast l := by
  intro before frame after hl hclose
  have hnot := h frame (hl ▸ List.mem_append_right before List.mem_cons_self)
  rw [hclose] at hnot
  exact absurd hnot.symm Bool.false_ne_true

theorem closesLast_concat {l : List Bytes} (h : ∀ frame ∈ l, carries .close frame = false)
    (last : Bytes) : ClosesLast (l ++ [last]) := by
  intro before frame after hl hclose
  rcases List.eq_nil_or_concat' after with rfl | ⟨after, last', rfl⟩
  · rfl
  · rw [← List.cons_append, ← List.append_assoc] at hl
    obtain ⟨rfl, -⟩ := List.append_inj' hl rfl
    have hnot := h frame (List.mem_append_right before List.mem_cons_self)
    rw [hclose] at hnot
    exact absurd hnot.symm Bool.false_ne_true

theorem ClosesLast.of_prefix {l l' : List Bytes} (h : ClosesLast l) (hpre : l' <+: l) :
    ClosesLast l' := by
  obtain ⟨rest, rfl⟩ := hpre
  intro before frame after hl hclose
  have hafter := h before frame (after ++ rest) (by rw [hl, List.append_assoc]; rfl) hclose
  exact (List.append_eq_nil_iff.mp hafter).1

/-- The invariant. Close frames on their way have been pushed, and nothing is behind them. -/
structure Closing (s : Draining ι) : Prop where
  last : ClosesLast s.trace
  unclosed : s.Unclosed → ∀ frame ∈ s.trace, carries .close frame = false
  placed : Placed (fun place ↦ carries .close place = false) s

omit [DecidableEq ι] in
/-- Close frames are in their order, and have been pushed, after every step. -/
theorem closing_of_traced {s s' : Draining ι} {e : Event ι} (hs : Closing s) (h : Traced s e s')
    (hmeets : Parting s e) : ClosesLast s'.trace ∧
      (s'.Unclosed → ∀ frame ∈ s'.trace, carries .close frame = false) := by
  have hunclosed {frame : Bytes} (hentered : s'.session.entered = s.session.entered ++ [frame])
      (h : s'.Unclosed) : carries .close frame = false :=
    h frame (hentered ▸ List.mem_append_right _ List.mem_cons_self)
  cases h with
  | same htrace hentered =>
    rw [Unclosed, htrace, hentered]
    exact ⟨hs.last, hs.unclosed⟩
  | @back frame he htask htrace hentered =>
    have hnone := hs.unclosed (hmeets he frame (Or.inl htask)).1
    rw [htrace]
    refine ⟨closesLast_concat hnone frame, fun h ↦ ?_⟩
    exact List.forall_mem_append.mpr
      ⟨hnone, List.forall_mem_singleton.mpr (hunclosed hentered h)⟩
  | @front frame he htask hpopping htrace hentered =>
    obtain ⟨hbefore, hempty⟩ := hmeets he frame (Or.inr htask)
    obtain ⟨htaken, hrest⟩ := List.forall_mem_append.mp (hs.unclosed hbefore)
    rw [htrace]
    have hall (h : carries .close frame = false) :
        ∀ frame' ∈ s.taken ++ frame :: s.rest, carries .close frame' = false :=
      List.forall_mem_append.mpr ⟨htaken, List.forall_mem_cons.mpr ⟨h, hrest⟩⟩
    refine ⟨?_, fun h ↦ hall (hunclosed hentered h)⟩
    by_cases hclose : carries .close frame = true
    · -- nothing waits behind the Close frame
      have hrest : s.rest = [] := by
        rw [rest, hpopping]
        exact hempty hclose
      rw [hrest]
      exact closesLast_concat htaken frame
    · exact closesLast_of_not_mem (hall (Bool.not_eq_true _ ▸ hclose))
  | @lost frame place he htask hpopping hplace htrace hentered =>
    obtain ⟨htaken, hrest⟩ :=
      List.forall_mem_append.mp (hs.unclosed (hmeets he frame (Or.inr htask)).1)
    have hall : ∀ frame' ∈ s.taken ++ place :: s.rest, carries .close frame' = false :=
      List.forall_mem_append.mpr
        ⟨htaken, List.forall_mem_cons.mpr ⟨hs.placed hpopping _ _ hplace, hrest⟩⟩
    rw [htrace]
    exact ⟨closesLast_of_not_mem hall, fun _ ↦ hall⟩
  | cleared _ htrace hentered =>
    rw [Unclosed, hentered]
    refine ⟨hs.last.of_prefix htrace, fun h frame hframe ↦ ?_⟩
    exact hs.unclosed h frame (htrace.subset hframe)

theorem closing_of_moves {s s' : Draining ι} {e : Event ι} (hsingle : Single s) (hs : Closing s)
    (h : Moves maxPayload s e s') (hmeets : Parting s e) : Closing s' := by
  obtain ⟨hlast, hunclosed⟩ := closing_of_traced hs (traced_of_moves hsingle h) hmeets
  refine ⟨hlast, hunclosed, placed_of_moves (P := fun place ↦ carries .close place = false) rfl
    hsingle h (fun he frame htask hpopping ↦ ?_) hs.placed⟩
  -- a Close frame is not pushed while there are places in the queue
  obtain ⟨place, hplace⟩ := hsingle.exists_of_popping hpopping
  by_contra hclose
  have hempty := (hmeets he frame (Or.inr htask)).2 (Bool.not_eq_false _ ▸ hclose)
  rw [hplace] at hempty
  exact absurd hempty (List.cons_ne_nil _ _)

/-- **Nothing follows the Close frame** in a run in which no frame is pushed after a Close frame,
and a Close frame only onto an empty queue. -/
theorem nothing_follows_close {es : List (Event ι)} {s : Draining ι}
    (hrun : start.run maxPayload es = some s)
    (hmeets : Machine.Along (step maxPayload) Parting start es) : ClosesLast s.handed := by
  have hs : Single s ∧ Closing s := by
    refine Machine.run_invariant_along (I := fun s ↦ Single s ∧ Closing s)
      (fun s e s' hs hC hstep ↦ ?_) hmeets ⟨single_start, ?_⟩ hrun
    · have hmoves := moves_of_step hstep
      exact ⟨single_of_moves hs.1 hmoves, closing_of_moves hs.1 hs.2 hmoves hC⟩
    · exact ⟨closesLast_of_not_mem nofun, fun _ ↦ nofun, fun h ↦ absurd h Bool.false_ne_true⟩
  apply hs.2.last.of_prefix
  rw [trace, taken, List.append_assoc]
  exact List.prefix_append _ _

/-- The events of a caller that closes the session, up to its post. -/
def closing (i : ι) : List (Event ι) :=
  .party (.call i (call (.closeGraceful 1000 []) fun _ ↦ ret ())) ::
    List.replicate 3 (.party (.turn (.caller i) (ret ())))

omit [DecidableEq ι] in
/-- A closure that pushes its frame before any other. -/
theorem parting_of_entered {s : Draining ι} (hentered : s.session.entered = [])
    (hqueue : s.session.sendQueue = []) (e : Event ι) : Parting s e := by
  refine fun _ frame _ ↦ ⟨fun frame' hframe' ↦ ?_, fun _ ↦ hqueue⟩
  rw [hentered] at hframe'
  exact absurd hframe' List.not_mem_nil

omit [DecidableEq ι] in
theorem parting_of_task {s : Draining ι} (h : ∀ frame, ¬s.Pushes frame) (e : Event ι) :
    Parting s e := fun _ frame hpushes ↦ absurd hpushes (h frame)

/-- A session that is closed and sends nothing else. -/
theorem nothing_follows_close_alone : ∃ s : Draining Unit,
    start.run 16 (closing () ++ (List.replicate 4 .strand ++
      (List.replicate 4 (.drain 0) ++ [.written 0 true, .drain 0, .drain 0]))) = some s ∧
      ClosesLast s.handed := by
  obtain ⟨s₁, s₂, s, hrun₁, hrun₂, hrun₃, hmeets⟩ : ∃ s₁ s₂ s : Draining Unit,
      start.run 16 (closing ()) = some s₁ ∧ s₁.run 16 (List.replicate 4 .strand) = some s₂ ∧
        s₂.run 16 (List.replicate 4 (.drain 0) ++ [.written 0 true, .drain 0, .drain 0]) =
          some s ∧
        Machine.Along (step 16) Parting s₁ (List.replicate 4 .strand) := by
    refine ⟨_, _, _, rfl, rfl, rfl, ?_⟩
    refine Machine.along_cons (parting_of_task (fun _ h ↦ ?_) _) rfl ?_
    · rcases h with h | h <;> cases h
    apply Machine.along_cons (parting_of_entered rfl rfl _) rfl
    iterate 2
      refine Machine.along_cons (parting_of_task (fun _ h ↦ ?_) _) rfl ?_
      · rcases h with h | h <;> cases h
    trivial
  have hothers : ∀ {es : List (Event Unit)} {s : Draining Unit}, (∀ e ∈ es, e ≠ .strand) →
      Machine.Along (step 16) Parting s es := fun hes ↦
    Machine.along_of_forall fun e he _ hstrand ↦ absurd hstrand (hes e he)
  have hrun := Machine.run_trans hrun₁ (Machine.run_trans hrun₂ hrun₃)
  refine ⟨s, hrun, nothing_follows_close hrun ?_⟩
  refine Machine.along_append (hothers ?_) hrun₁ (Machine.along_append hmeets hrun₂ (hothers ?_))
  · simp [closing]
  · simp

/-- A message that is sent after `close`, while the Close frame is being written. -/
theorem not_nothing_follows_close : ¬∀ (maxPayload : ℕ) (es : List (Event Unit))
    (s : Draining Unit), start.run maxPayload es = some s → ClosesLast s.handed := by
  intro h
  obtain ⟨s, hrun, hhanded⟩ : ∃ s : Draining Unit,
      start.run 16 (closing () ++ List.replicate 4 .strand ++ List.replicate 4 (.drain 0) ++
        sending () [0x61] ++ List.replicate 4 .strand ++ [.written 0 true] ++
        List.replicate 4 (.drain 0)) = some s ∧
      s.handed = [] ++ [0x88, 2, 3, 0xE8] :: [[0x81, 1, 0x61]] := ⟨_, rfl, rfl⟩
  exact absurd (h 16 _ s hrun _ _ _ hhanded (by decide)) (List.cons_ne_nil _ _)

end Draining

end Aevox
