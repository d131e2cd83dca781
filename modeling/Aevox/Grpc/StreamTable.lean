import Aevox.Grpc.Replies
import Mathlib.Data.Set.Card

/-!
# The stream table of a gRPC session

A stream gets its entry in the table when it begins. Nothing takes an entry out again: the session
has no callback for the end of a stream, so it is not told of a reset, and neither processing a
stream nor submitting the trailers of its answer touches the table. The table has therefore an
entry for each stream that has ever begun (`Inv`), which is as many as are live only as long as no
stream has come to its end (`bounded_iff`), and no bound at all holds in general
(`run_abandoned`).

How many streams are live at once is what the library sees to: it refuses a stream beyond the
number that was advertised.
-/

namespace Aevox

namespace Grpc

/-- A session and its connection: the streams that have begun and those that were reset by either
side, of which only the library knows. -/
structure Connection where
  session : Session
  begun : List ℕ := []
  resets : List ℕ := []

namespace Connection

/-- What can happen next. -/
inductive Event where
  | session (e : Grpc.Event)
  /-- A stream is reset. No callback is registered that would tell the session. -/
  | rstStream (streamId : ℕ)

/-- The stream is open and its answer is not complete. -/
def isLive (c : Connection) (streamId : ℕ) : Bool :=
  !c.resets.contains streamId && (c.session.wire streamId).trailers.isEmpty

/-- The streams that are open and not yet fully answered. -/
def live (c : Connection) : List ℕ := c.begun.filter c.isLive

/-- The streams in the table. -/
def entries (c : Connection) : Set ℕ := {streamId | (c.session.streams streamId).isSome}

/-- The library opens no stream beyond the advertised number, and reports nothing of a stream that
was reset. -/
def admits (c : Connection) : Grpc.Event → Bool
  | .beginHeaders _ request =>
    !request || c.live.length < c.session.config.maxConcurrentStreams.toNat
  | .header streamId _ _ _ | .dataChunk streamId _ | .frameRecv streamId _ | .dataRead streamId _ =>
    !c.resets.contains streamId
  | .next _ => true

/-- The stream that begins. -/
def begins : Grpc.Event → List ℕ
  | .beginHeaders streamId true => [streamId]
  | _ => []

/-- What happens, if it can. -/
def step (c : Connection) : Event → Option Connection
  | .session e =>
    if c.admits e then
      (c.session.step e).map fun session ↦ { c with session, begun := c.begun ++ begins e }
    else none
  | .rstStream streamId =>
    if streamId ∈ c.begun ∧ streamId ∉ c.resets then
      some { c with resets := c.resets ++ [streamId] }
    else none

/-- A new connection. -/
def start (config : PluginConfig) (methods : List Bytes) : Connection where
  session := Grpc.start config methods

/-- The state after a sequence of events. -/
def run (c : Connection) (es : List Event) : Option Connection := Machine.run step c es

/-- The table is no larger than the number of live streams, and than what was advertised. -/
def Bounded (c : Connection) : Prop :=
  c.entries.encard ≤ c.live.length ∧
    c.entries.encard ≤ c.session.config.maxConcurrentStreams.toNat

end Connection

/-! ## What a step of the session means for the table -/

open Connection

namespace Session

variable {s s' : Session} {e : Grpc.Event}

/-- Submitted trailers have been given to the library. -/
def TrailersGiven (s : Session) : Prop :=
  ∀ streamId state, s.streams streamId = some state → state.trailersSubmitted = true →
    (s.wire streamId).trailers ≠ []

theorem config_step (h : s.step e = some s') : s'.config = s.config := by
  cases moves_of_step h <;> rfl

theorem setStream_self (streamId : ℕ) (state : StreamState) (w : Wire) :
    (s.setStream streamId state w).streams streamId = some state ∧
      (s.setStream streamId state w).wire streamId = w :=
  ⟨Function.update_self _ _ _, Function.update_self _ _ _⟩

theorem setStream_of_ne {streamId id : ℕ} (hid : id ≠ streamId) (state : StreamState) (w : Wire) :
    (s.setStream streamId state w).streams id = s.streams id ∧
      (s.setStream streamId state w).wire id = s.wire id :=
  ⟨Function.update_of_ne hid _ _, Function.update_of_ne hid _ _⟩

theorem isSome_update {streams : ℕ → Option StreamState} {streamId : ℕ} {state : StreamState}
    (hstate : streams streamId = some state) (state' : StreamState) (id : ℕ) :
    (Function.update streams streamId (some state') id).isSome = (streams id).isSome := by
  by_cases hid : id = streamId
  · rw [hid, Function.update_self, hstate]
    rfl
  · rw [Function.update_of_ne hid]

/-- What a change of one stream keeps on the wire is kept for all streams. -/
theorem congr_update {α : Type*} (f : Wire → α) {wire : ℕ → Wire} {streamId : ℕ} {w : Wire}
    (hw : f w = f (wire streamId)) (id : ℕ) :
    f (Function.update wire streamId w id) = f (wire id) := by
  by_cases hid : id = streamId
  · rw [hid, Function.update_self, hw]
  · rw [Function.update_of_ne hid]

theorem begins_eq_nil (h : ¬∃ streamId, e = .beginHeaders streamId true) : begins e = [] := by
  rw [begins.eq_def]
  split
  · exact absurd ⟨_, rfl⟩ h
  · rfl

theorem step_beginHeaders {streamId : ℕ} (h : s.step (.beginHeaders streamId true) = some s') :
    (s.wire streamId).opened = false ∧
      s' = s.setStream streamId {} { s.wire streamId with opened := true } := by
  rw [step, if_pos rfl] at h
  split at h
  · exact ⟨‹_ ∧ _›.2, (Option.some.inj h).symm⟩
  · cases h

/-- **The table.** A stream that begins gets an entry, and no step removes one. -/
theorem isSome_streams_step (h : s.step e = some s') (id : ℕ) :
    (s'.streams id).isSome = ((s.streams id).isSome || (begins e).contains id) := by
  by_cases hbegin : ∃ streamId, e = .beginHeaders streamId true
  · obtain ⟨streamId, rfl⟩ := hbegin
    rw [(step_beginHeaders h).2, begins]
    by_cases hid : id = streamId
    · simp [hid, setStream_self]
    · simp [hid, setStream_of_ne hid]
  · rw [begins_eq_nil hbegin]
    refine Eq.trans ?_ (Bool.or_false _).symm
    cases moves_of_step h with
    | begins => exact absurd ⟨_, rfl⟩ hbegin
    | ignores | skips => rfl
    | header hstate | dataChunk hstate | ends hstate | answers _ hstate | reads hstate =>
      exact isSome_update hstate _ id

theorem opened_wire_step (h : s.step e = some s') (id : ℕ) :
    (s'.wire id).opened = ((s.wire id).opened || (begins e).contains id) := by
  by_cases hbegin : ∃ streamId, e = .beginHeaders streamId true
  · obtain ⟨streamId, rfl⟩ := hbegin
    rw [(step_beginHeaders h).2, begins]
    by_cases hid : id = streamId
    · simp [hid, setStream_self]
    · simp [hid, setStream_of_ne hid]
  · rw [begins_eq_nil hbegin]
    refine Eq.trans ?_ (Bool.or_false _).symm
    cases moves_of_step h with
    | begins => exact absurd ⟨_, rfl⟩ hbegin
    | ignores | skips => rfl
    | header | dataChunk | ends | answers | reads =>
      refine congr_update Wire.opened ?_ id
      rfl

/-! ## The end of an answer -/

/-- The event is a read that reaches the end of the body. -/
def ReachesEnd (s : Session) : Grpc.Event → Prop
  | .dataRead streamId length => ∃ state ∈ s.streams streamId,
      state.responseBytes.length ≤ state.responseOffset + length
  | _ => False

/-- Whether a read reaches the end decides what becomes of the trailers. -/
theorem onDataRead_trailers (state : StreamState) (length : ℕ) :
    ((state.onDataRead length).trailers, (state.onDataRead length).state.trailersSubmitted) =
      if state.responseBytes.length ≤ state.responseOffset + length then
        (if state.trailersSubmitted then none else some state.responseTrailers, true)
      else (none, state.trailersSubmitted) := by
  have hlength : state.responseBytes.length ≤ state.responseOffset +
      ((state.responseBytes.drop state.responseOffset).take length).length ↔
        state.responseBytes.length ≤ state.responseOffset + length := by
    rw [List.length_take, List.length_drop]
    omega
  rw [StreamState.onDataRead]
  dsimp only
  simp only [hlength]
  split
  · cases state.trailersSubmitted <;> rfl
  · rfl

theorem trailers_step (h : s.step e = some s') (hend : ¬s.ReachesEnd e) (id : ℕ) :
    (s'.wire id).trailers = (s.wire id).trailers := by
  cases moves_of_step h with
  | ignores | skips => rfl
  | begins | header | dataChunk | ends | answers =>
    refine congr_update Wire.trailers ?_ id
    rfl
  | @reads streamId length state hstate =>
    refine congr_update Wire.trailers ?_ id
    have htrailers := onDataRead_trailers state length
    rw [if_neg fun hle ↦ hend ⟨state, hstate, hle⟩, Prod.mk.injEq] at htrailers
    dsimp only
    rw [htrailers.1, Option.toList_none, List.append_nil]

theorem trailers_prefix_step (h : s.step e = some s') (id : ℕ) :
    (s.wire id).trailers <+: (s'.wire id).trailers := by
  by_cases hend : s.ReachesEnd e
  · cases moves_of_step h with
    | @reads streamId length state hstate =>
      by_cases hid : id = streamId
      · rw [hid, (setStream_self _ _ _).2]
        exact List.prefix_append _ _
      · rw [(setStream_of_ne hid _ _).2]
    | ignores => exact List.prefix_rfl
    | _ => exact hend.elim
  · rw [trailers_step h hend]

theorem trailersSubmitted_process (state : StreamState) (config : PluginConfig)
    (methods : List Bytes) (answer : Answer) :
    (state.process config methods answer).1.trailersSubmitted = false := by
  unfold StreamState.process
  split <;> rfl

theorem trailersSubmitted_onHeader (state : StreamState) (name value : Bytes) :
    (state.onHeader name value).trailersSubmitted = state.trailersSubmitted := by
  unfold StreamState.onHeader
  grind

theorem trailersSubmitted_onDataChunkRecv (state : StreamState) (max : UInt64) (chunk : Bytes) :
    (state.onDataChunkRecv max chunk).trailersSubmitted = state.trailersSubmitted := by
  unfold StreamState.onDataChunkRecv
  split <;> rfl

theorem TrailersGiven.set (hs : s.TrailersGiven) {streamId : ℕ} {state : StreamState} {w : Wire}
    (hnew : state.trailersSubmitted = true → w.trailers ≠ []) :
    (s.setStream streamId state w).TrailersGiven :=
  forall_setStream (P := fun state w ↦ state.trailersSubmitted = true → w.trailers ≠ []) hs hnew

theorem trailers_ne_nil_of_onDataRead {state : StreamState} {length : ℕ}
    {trailers : List (List Metadata)} (hstate : state.trailersSubmitted = true → trailers ≠ [])
    (h : (state.onDataRead length).state.trailersSubmitted = true) :
    trailers ++ (state.onDataRead length).trailers.toList ≠ [] := by
  have htrailers := onDataRead_trailers state length
  rw [h] at htrailers
  split at htrailers <;> rw [Prod.mk.injEq] at htrailers
  · rw [htrailers.1]
    by_cases hsubmitted : state.trailersSubmitted = true
    · exact List.append_ne_nil_of_left_ne_nil (hstate hsubmitted) _
    · simp [hsubmitted]
  · exact List.append_ne_nil_of_left_ne_nil (hstate htrailers.2.symm) _

theorem trailersGiven_step (hs : s.TrailersGiven) (h : s.step e = some s') : s'.TrailersGiven := by
  cases moves_of_step h with
  | ignores | skips => exact hs
  | begins => exact hs.set fun hsubmitted ↦ nomatch hsubmitted
  | header hstate =>
    exact hs.set fun hsubmitted ↦ hs _ _ hstate (trailersSubmitted_onHeader _ _ _ ▸ hsubmitted)
  | dataChunk hstate =>
    exact hs.set fun hsubmitted ↦
      hs _ _ hstate (trailersSubmitted_onDataChunkRecv _ _ _ ▸ hsubmitted)
  | ends hstate => exact hs.set fun hsubmitted ↦ hs _ _ hstate hsubmitted
  | answers _ hstate =>
    refine hs.set fun hsubmitted ↦ ?_
    rw [trailersSubmitted_process] at hsubmitted
    exact nomatch hsubmitted
  | @reads streamId length state hstate =>
    exact hs.set (trailers_ne_nil_of_onDataRead (hs streamId state hstate))

/-- **Answered.** A read that reaches the end of the body leaves submitted trailers. -/
theorem trailers_ne_nil_of_reachesEnd {streamId length : ℕ} (hs : s.TrailersGiven)
    (h : s.step (.dataRead streamId length) = some s')
    (hend : s.ReachesEnd (.dataRead streamId length)) : (s'.wire streamId).trailers ≠ [] := by
  obtain ⟨state, hstate, hle⟩ := hend
  have hsubmitted := congrArg Prod.snd (onDataRead_trailers state length)
  rw [if_pos hle] at hsubmitted
  rw [step, hstate] at h
  dsimp only at h
  split at h
  · rw [← Option.some.inj h, (setStream_self _ _ _).2]
    exact trailers_ne_nil_of_onDataRead (hs streamId state hstate) hsubmitted
  · cases h

end Session

namespace Connection

variable {c c' : Connection}

/-! ## The connection -/

/-- What is known of the streams. -/
structure Inv (c : Connection) : Prop where
  entries : ∀ streamId, (c.session.streams streamId).isSome ↔ streamId ∈ c.begun
  opened : ∀ streamId, (c.session.wire streamId).opened = true ↔ streamId ∈ c.begun
  nodup : c.begun.Nodup
  trailersGiven : c.session.TrailersGiven
  live : c.live.length ≤ c.session.config.maxConcurrentStreams.toNat

theorem inv_start (config : PluginConfig) (methods : List Bytes) : (start config methods).Inv where
  entries _ := ⟨fun h ↦ (nomatch h), fun h ↦ (nomatch h)⟩
  opened _ := ⟨fun h ↦ (nomatch h), fun h ↦ (nomatch h)⟩
  nodup := List.nodup_nil
  trailersGiven _ _ h := nomatch h
  live := Nat.zero_le _

theorem step_session {e : Grpc.Event} (h : c.step (.session e) = some c') :
    c.admits e = true ∧ ∃ session, c.session.step e = some session ∧
      c' = { c with session, begun := c.begun ++ begins e } := by
  rw [step] at h
  split at h
  · obtain ⟨session, hstep, hc'⟩ := Option.map_eq_some_iff.mp h
    exact ⟨‹_›, session, hstep, hc'.symm⟩
  · exact nomatch h

theorem step_rstStream {streamId : ℕ} (h : c.step (.rstStream streamId) = some c') :
    streamId ∈ c.begun ∧ streamId ∉ c.resets ∧
      c' = { c with resets := c.resets ++ [streamId] } := by
  rw [step] at h
  split at h
  next hguard => exact ⟨hguard.1, hguard.2, (Option.some.inj h).symm⟩
  · exact nomatch h

/-- A stream that has come to its end does not come alive again. -/
theorem isLive_of_step {e : Event} (h : c.step e = some c') {streamId : ℕ}
    (hlive : c'.isLive streamId = true) : c.isLive streamId = true := by
  rw [isLive, Bool.and_eq_true, List.isEmpty_iff] at hlive ⊢
  cases e with
  | session e =>
    obtain ⟨-, session, hstep, rfl⟩ := step_session h
    refine ⟨hlive.1, List.prefix_nil.mp ?_⟩
    rw [← hlive.2]
    exact Session.trailers_prefix_step hstep streamId
  | rstStream id =>
    obtain ⟨-, -, rfl⟩ := step_rstStream h
    refine ⟨?_, hlive.2⟩
    have hresets := hlive.1
    simp only [List.contains_append, Bool.not_or, Bool.and_eq_true] at hresets
    exact hresets.1

theorem live_of_step {c c' : Connection} (h : ∀ id, c'.isLive id = true → c.isLive id = true)
    (ids : List ℕ) : ((c.begun ++ ids).filter c'.isLive).length ≤ c.live.length + ids.length := by
  rw [List.filter_append, List.length_append]
  exact Nat.add_le_add (List.monotone_filter_right _ h).length_le (List.length_filter_le _ _)

theorem inv_session {e : Grpc.Event} (hc : c.Inv) (h : c.step (.session e) = some c') : c'.Inv := by
  have hlive := live_of_step (fun _ ↦ isLive_of_step h) (begins e)
  obtain ⟨hadmits, session, hstep, rfl⟩ := step_session h
  refine ⟨fun id ↦ ?_, fun id ↦ ?_, ?_, Session.trailersGiven_step hc.trailersGiven hstep, ?_⟩
  · rw [Session.isSome_streams_step hstep, Bool.or_eq_true, hc.entries, List.contains_iff_mem,
      List.mem_append]
  · rw [Session.opened_wire_step hstep, Bool.or_eq_true, hc.opened, List.contains_iff_mem,
      List.mem_append]
  · by_cases hbegin : ∃ streamId, e = .beginHeaders streamId true
    -- the library never reuses the number of a stream
    · obtain ⟨streamId, rfl⟩ := hbegin
      refine hc.nodup.append (List.nodup_singleton streamId) ?_
      rw [begins, List.disjoint_singleton, ← hc.opened, (Session.step_beginHeaders hstep).1]
      exact Bool.false_ne_true
    · rw [Session.begins_eq_nil hbegin, List.append_nil]
      exact hc.nodup
  · rw [Session.config_step hstep]
    apply hlive.trans
    by_cases hbegin : ∃ streamId, e = .beginHeaders streamId true
    · obtain ⟨streamId, rfl⟩ := hbegin
      exact of_decide_eq_true hadmits
    · rw [Session.begins_eq_nil hbegin]
      exact hc.live

theorem inv_step {e : Event} (hc : c.Inv) (h : c.step e = some c') : c'.Inv := by
  cases e with
  | session e => exact inv_session hc h
  | rstStream streamId =>
    have hlive := live_of_step (fun _ ↦ isLive_of_step h) []
    obtain ⟨-, -, rfl⟩ := step_rstStream h
    rw [List.append_nil] at hlive
    exact ⟨hc.entries, hc.opened, hc.nodup, hc.trailersGiven, hlive.trans hc.live⟩

theorem inv_of_run {config : PluginConfig} {methods : List Bytes} {es : List Event}
    (h : (start config methods).run es = some c) : c.Inv :=
  Machine.run_invariant (fun _ _ _ hc hstep ↦ inv_step hc hstep) (inv_start config methods) h

/-- The table has an entry for each stream that has begun. -/
theorem encard_entries (hc : c.Inv) : c.entries.encard = c.begun.length := by
  have hentries : c.entries = (c.begun.toFinset : Set ℕ) := by
    ext streamId
    rw [List.coe_toFinset]
    exact hc.entries streamId
  rw [hentries, Set.encard_coe_eq_coe_finsetCard, List.toFinset_card_of_nodup hc.nodup]

theorem bounded_iff_forall (hc : c.Inv) :
    c.Bounded ↔ ∀ streamId ∈ c.begun, c.isLive streamId = true := by
  rw [Bounded, encard_entries hc, ← List.length_filter_eq_length_iff, ← live]
  simp only [Nat.cast_le]
  have hle : c.live.length ≤ c.begun.length := List.length_filter_le _ _
  constructor
  · rintro ⟨hge, -⟩
    exact hle.antisymm hge
  · intro heq
    exact ⟨heq.ge, heq.ge.trans hc.live⟩

/-! ## Runs in which no stream ends -/

/-- No stream comes to its end. -/
def Keeps (c : Connection) : Event → Prop
  | .session e => ¬c.session.ReachesEnd e
  | .rstStream _ => False

/-- Nothing has ended. -/
structure Untouched (c : Connection) : Prop where
  inv : c.Inv
  resets : c.resets = []
  trailers : ∀ streamId, (c.session.wire streamId).trailers = []

theorem untouched_step {e : Event} (hc : c.Untouched) (hkeeps : c.Keeps e)
    (h : c.step e = some c') : c'.Untouched := by
  have hinv := inv_step hc.inv h
  cases e with
  | session e =>
    obtain ⟨-, session, hstep, rfl⟩ := step_session h
    exact ⟨hinv, hc.resets, fun id ↦ (Session.trailers_step hstep hkeeps id).trans (hc.trailers id)⟩
  | rstStream streamId => exact hkeeps.elim

theorem bounded_of_untouched (hc : c.Untouched) : c.Bounded := by
  rw [bounded_iff_forall hc.inv]
  intro streamId _
  rw [isLive, hc.resets, hc.trailers]
  rfl

/-- A step in which a stream ends leaves more entries than live streams. -/
theorem keeps_of_bounded {e : Event} (hc : c.Inv) (h : c.step e = some c') (hc' : c'.Bounded) :
    c.Keeps e := by
  rw [bounded_iff_forall (inv_step hc h)] at hc'
  cases e with
  | session e =>
    obtain ⟨-, session, hstep, rfl⟩ := step_session h
    intro hend
    cases e with
    | dataRead streamId length =>
      -- the entry of the stream outlives its trailers
      obtain ⟨state, hstate, -⟩ := id hend
      have hbegun := (hc.entries streamId).mp (by rw [hstate]; rfl)
      have hlive := hc' streamId (List.mem_append_left _ hbegun)
      rw [isLive, Bool.and_eq_true, List.isEmpty_iff] at hlive
      exact Session.trailers_ne_nil_of_reachesEnd hc.trailersGiven hstep hend hlive.2
    | _ => exact hend
  | rstStream streamId =>
    obtain ⟨hbegun, -, rfl⟩ := step_rstStream h
    have hlive := hc' streamId hbegun
    simp [isLive] at hlive

variable {config : PluginConfig} {methods : List Bytes} {es : List Event}

/-- **The table is bounded exactly until a stream ends.** In a run, every state reached has at most
as many entries as live streams, and as the advertised number, if and only if no open stream is
reset and no answer is read to its end. -/
theorem bounded_iff (hrun : (start config methods).run es = some c) :
    (∀ es' c', es' <+: es → (start config methods).run es' = some c' → c'.Bounded) ↔
      Machine.Along step Keeps (start config methods) es := by
  constructor
  · intro hbounded
    refine Machine.along_iff.mpr fun es₁ e c₁ hpre hrun₁ ↦ ?_
    obtain ⟨es₂, rfl⟩ := hpre
    obtain ⟨c₂, hc₂, -⟩ := Option.bind_eq_some_iff.mp (Machine.run_append.symm.trans hrun)
    have hstep := (Machine.run_append_of_some hrun₁ [e]).symm.trans hc₂
    rw [Machine.run_singleton] at hstep
    exact keeps_of_bounded (inv_of_run hrun₁) hstep (hbounded _ c₂ (List.prefix_append _ _) hc₂)
  · intro hkeeps es' c' hpre hrun'
    have hkeeps' : Machine.Along step Keeps (start config methods) es' :=
      Machine.along_iff.mpr fun es₁ e c₁ hpre₁ ↦
        Machine.along_iff.mp hkeeps es₁ e c₁ (hpre₁.trans hpre)
    refine bounded_of_untouched (Machine.run_invariant_along
      (fun _ _ _ hc hC hstep ↦ untouched_step hc hC hstep) hkeeps' ?_ hrun')
    exact ⟨inv_start config methods, rfl, fun _ ↦ rfl⟩

/-- Nothing ends while a request is received. -/
theorem bounded_iff_receiving : ∃ c, (start {} [ascii "/a/b"]).run
      [.session (.beginHeaders 1 true), .session (.header 1 true (ascii ":method") (ascii "POST")),
        .session (.beginHeaders 3 true), .session (.dataChunk 1 [0, 0, 0, 0, 0])] = some c ∧
    ((∀ es' c', es' <+: [.session (.beginHeaders 1 true),
        .session (.header 1 true (ascii ":method") (ascii "POST")),
        .session (.beginHeaders 3 true), .session (.dataChunk 1 [0, 0, 0, 0, 0])] →
          (start {} [ascii "/a/b"]).run es' = some c' → c'.Bounded) ↔
      Machine.Along step Keeps (start {} [ascii "/a/b"]) [.session (.beginHeaders 1 true),
        .session (.header 1 true (ascii ":method") (ascii "POST")),
        .session (.beginHeaders 3 true), .session (.dataChunk 1 [0, 0, 0, 0, 0])]) :=
  ⟨_, rfl, bounded_iff rfl⟩

/-- One request is read, answered by its handler, and its answer sent to the end. -/
def oneRequest : List Event :=
  [.session (.beginHeaders 1 true), .session (.header 1 true (ascii ":method") (ascii "POST")),
    .session (.header 1 true (ascii ":path") (ascii "/a/b")),
    .session (.header 1 true (ascii "content-type") (ascii "application/grpc")),
    .session (.dataChunk 1 [0, 0, 0, 0, 0]), .session (.frameRecv 1 true),
    .session (.next (.returns ⟨[], []⟩)), .session (.dataRead 1 16384)]

/-- The table of a connection that has answered its only request is not empty. -/
theorem not_bounded_of_answered :
    ¬∀ (config : PluginConfig) (methods : List Bytes) (es : List Event) (c : Connection),
      validateConfig config = .ok () → (start config methods).run es = some c → c.Bounded := by
  intro h
  obtain ⟨c, hrun, hbegun, hlive⟩ : ∃ c, (start {} [ascii "/a/b"]).run oneRequest = some c ∧
      c.begun = [1] ∧ c.isLive 1 = false := ⟨_, rfl, rfl, rfl⟩
  have hbounded := (bounded_iff_forall (inv_of_run hrun)).mp (h _ _ _ c rfl hrun) 1
    (by rw [hbegun]; exact List.mem_singleton_self 1)
  exact absurd (hlive.symm.trans hbounded) Bool.false_ne_true

/-! ## Growth -/

/-- Requests that are begun and reset at once, one after another. -/
def abandoned : ℕ → List Event
  | 0 => []
  | n + 1 => abandoned n ++ [.session (.beginHeaders (2 * n + 1) true), .rstStream (2 * n + 1)]

theorem live_eq_nil (h : c.resets = c.begun) : c.live = [] := by
  rw [live, List.filter_eq_nil_iff]
  intro id hid
  simp [isLive, h, hid]

theorem run_begin_reset (hc : c.Inv) {streamId : ℕ} (hid : streamId ≠ 0) (hnew : streamId ∉ c.begun)
    (hreset : streamId ∉ c.resets)
    (hlive : c.live.length < c.session.config.maxConcurrentStreams.toNat) :
    ∃ c', c.run [.session (.beginHeaders streamId true), .rstStream streamId] = some c' ∧
      c'.session.config = c.session.config ∧ c'.begun = c.begun ++ [streamId] ∧
      c'.resets = c.resets ++ [streamId] := by
  have hopened : (c.session.wire streamId).opened = false :=
    Bool.eq_false_iff.mpr fun h ↦ hnew ((hc.opened _).mp h)
  have hbegin : c.session.step (.beginHeaders streamId true) = some (c.session.setStream streamId {}
      { c.session.wire streamId with opened := true }) := by
    rw [Session.step, if_pos rfl, if_pos ⟨hid, hopened⟩]
  have hfirst : c.step (.session (.beginHeaders streamId true)) = some { c with
      session := c.session.setStream streamId {} { c.session.wire streamId with opened := true }
      begun := c.begun ++ [streamId] } := by
    rw [step, if_pos (show c.admits (.beginHeaders streamId true) = true from
      decide_eq_true hlive), hbegin]
    rfl
  refine ⟨_, Machine.run_cons_eq_some_iff.mpr ⟨_, hfirst,
    (Machine.run_singleton _ _).trans (if_pos ⟨?_, hreset⟩)⟩, rfl, rfl, rfl⟩
  exact List.mem_append_right _ (List.mem_singleton_self streamId)

/-- **No bound.** A peer that never has more than one stream open leaves as many entries as it
likes. -/
theorem run_abandoned (hconfig : validateConfig config = .ok ()) (n : ℕ) :
    ∃ c, (start config methods).run (abandoned n) = some c ∧ c.live = [] ∧
      c.entries.encard = n := by
  have hmax : 0 < config.maxConcurrentStreams.toNat := by
    rw [validateConfig] at hconfig
    split at hconfig
    · exact nomatch hconfig
    · rename_i hvalid
      have hne : config.maxConcurrentStreams ≠ 0 := fun h ↦ hvalid (Or.inr (Or.inl h))
      exact Nat.pos_of_ne_zero fun h ↦ hne (UInt16.toNat_inj.mp h)
  -- the streams begun so far have the odd numbers, and all of them were reset
  suffices h : ∃ c, (start config methods).run (abandoned n) = some c ∧
      c.session.config = config ∧ c.begun = (List.range n).map (2 * · + 1) ∧
        c.resets = c.begun by
    obtain ⟨c, hrun, -, hbegun, hresets⟩ := h
    refine ⟨c, hrun, live_eq_nil hresets, ?_⟩
    rw [encard_entries (inv_of_run hrun), hbegun, List.length_map, List.length_range]
  induction n with
  | zero => exact ⟨_, rfl, rfl, rfl, rfl⟩
  | succ n ih =>
    obtain ⟨c, hrun, hc, hbegun, hresets⟩ := ih
    have hnew : 2 * n + 1 ∉ c.begun := by
      rw [hbegun, List.mem_map]
      rintro ⟨i, hi, heq⟩
      have := List.mem_range.mp hi
      omega
    obtain ⟨c', hrun', hc', hbegun', hresets'⟩ := run_begin_reset (inv_of_run hrun)
      (Nat.succ_ne_zero (2 * n)) hnew (hresets ▸ hnew)
      (by rw [live_eq_nil hresets, hc]; exact hmax)
    refine ⟨c', Machine.run_trans hrun hrun', hc'.trans hc, ?_, ?_⟩
    · rw [hbegun', hbegun, List.range_succ, List.map_append]
      rfl
    · rw [hresets', hbegun', hresets]

end Connection

end Grpc

end Aevox
