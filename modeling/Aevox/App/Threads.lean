import Aevox.App.Coroutines
import Aevox.App.Pipelining
import Aevox.Async.TaskRuntime

/-!
# Connections on the thread pools

A connection is modelled twice. As a `Conn` it is a machine of its own, which is resumed with the
outcome of its reads, its writes and what the application awaits; all statements about connections
are statements about that machine. In the server it is a tree of coroutine frames, run piecewise by
the threads of the pools between the frames of all other connections.

Every run of the server is a run of each machine: whatever the threads do, in whatever order, the
answers a connection has got are events its `Conn` accepts, one after another, and what the frames
have done so far is what the `Conn` has logged (`conn_of_run`).

The one answer that is not an outcome is that to `impl_->stream()`, which reads a field of the
request. It is assumed to be the field's value (`Truthful`): set when the request is made, cleared
by a hand-over.
-/

namespace Aevox

open Coroutine Frames

/-! ## What is seen of an answer -/

/-- The operation an entry of the log stands for. -/
def Entry.op : Entry → ServerOp
  | .read => .read
  | .dispatch req => .attach req
  | .enter stage => .task (.enter stage)
  | .upgrade bytes => .task (.write bytes)
  | .handOver => .task .handOver
  | .write bytes => .task (.write bytes)

namespace ServerOp

/-- The operations a connection logs. -/
def logged : ServerOp → Bool
  | .read => true
  | .attach _ => true
  | .task (.enter _) => true
  | .task (.write _) => true
  | .task .handOver => true
  | .task .await => false
  | .task .streamRef => false
  | .task .callEmpty => false

/-- The event an answer is, if the connection has waited for it. -/
def event : (Σ op : ServerOp, op.Answer) → Option Event
  | ⟨.read, data⟩ => some (.readDone data)
  | ⟨.task (.write _), success⟩ => some (.writeDone success)
  | ⟨.task .await, answer⟩ => some (.awaited answer)
  | _ => none

/-- `req_impl->stream()` after an operation. -/
def streamRef (present : Bool) : ServerOp → Bool
  | .attach _ => true
  | .task .handOver => false
  | _ => present

/-- What is asked about the stream is answered as it is. -/
def IsTrue (present : Bool) : (Σ op : ServerOp, op.Answer) → Prop
  | ⟨.task .streamRef, answer⟩ => answer = present
  | _ => True

/-- The same of all answers. -/
def Truthful : Bool → List (Σ op : ServerOp, op.Answer) → Prop
  | _, [] => True
  | present, x :: xs => IsTrue present x ∧ Truthful (streamRef present x.1) xs

end ServerOp

/-! ## Frames and machine -/

namespace Threads

variable {σ : Type} {L : Llhttp σ} {app : App} {config : AppConfig}

/-- `dispatch_handler`, which awaits the connection handler. -/
def served (L : Llhttp σ) (app : App) (config : AppConfig) :
    Callers (server L app config) .void .void :=
  .caller (ServerCode.onValue fun v ↦ .coro (.ret v)) .none

/-- The connection handler, which goes on with `k`. -/
def awaiting (L : Llhttp σ) (app : App) (config : AppConfig) {b : ResultType}
    (k : b.El → ServerCode σ .void) : Callers (server L app config) .void b :=
  .caller (ServerCode.onValue k) (served L app config)

/-- From `c₀` and a point of the connection handler the machine gets to where it waits. -/
inductive Point (L : Llhttp σ) (app : App) (config : AppConfig) (c₀ : Conn σ) :
    ServerCode σ .void → Conn σ → Prop
  | loop : Point L app config c₀ (.loop c₀.parser) c₀.read
  | received (data : Option Bytes) :
      Point L app config c₀ (.received c₀.parser data) (c₀.afterRead L app config data)
  | attached (keepAlive : Bool) (req : Request) :
      Point L app config c₀ (.attached c₀.parser keepAlive req)
        (c₀.advance keepAlive (app.dispatchWithPipeline req))
  | dispatched (keepAlive : Bool) (res : Response) :
      Point L app config c₀ (.dispatched c₀.parser keepAlive res) (c₀.conclude keepAlive (.ok res))
  | responded (keepAlive success : Bool) :
      Point L app config c₀ (.responded c₀.parser keepAlive success)
        (if success ∧ keepAlive then Conn.read { c₀ with parser := c₀.parser.reset L }
        else c₀.finish (.ok ()))
  | refused (success : Bool) : Point L app config c₀ (.refused success) (c₀.finish (.ok ()))
  | raise (e : Exn) : Point L app config c₀ (.coro (.raise e)) (c₀.finish (.error e))

/-- The same while the connection handler awaits a coroutine that still does `t`. -/
inductive Awaits (L : Llhttp σ) (app : App) (config : AppConfig) (c₀ : Conn σ) :
    (b : ResultType) → (b.El → ServerCode σ .void) →
      Coroutine ServerOp ServerOp.Answer Exn b.El → Conn σ → Prop
  | reading : Awaits L app config c₀ .data (.received c₀.parser) Coro.read.denote c₀.read
  | dispatching (keepAlive : Bool) (task : Task Response) :
      Awaits L app config c₀ .response (.dispatched c₀.parser keepAlive) (Task.onServer task)
        (c₀.advance keepAlive task)
  | responding (keepAlive : Bool) (bytes : Bytes) :
      Awaits L app config c₀ .written (.responded c₀.parser keepAlive) (Coro.write bytes).denote
        { c₀.record (.write bytes) with phase := .responding keepAlive }
  | refusing : Awaits L app config c₀ .written .refused
      (Coro.write (serializeResponse (.badRequest (ascii "Bad Request")))).denote c₀.refuse
  | returned {b : ResultType} {k : b.El → ServerCode σ .void} {v : b.El} {c : Conn σ}
      (h : Point L app config c₀ (k v) c) : Awaits L app config c₀ b k (.ret v) c

/-- From `c₀` and the call stack of a connection the machine gets to where it waits. -/
inductive Serves (L : Llhttp σ) (app : App) (config : AppConfig) (c₀ : Conn σ) :
    Stack (server L app config) .void → Conn σ → Prop
  | begin (hparser : c₀.parser = .create L config.parserConfig app.platform.growth) :
      Serves L app config c₀ (.running .dispatchHandler .none) c₀.read
  | point {code : ServerCode σ .void} {c : Conn σ} (h : Point L app config c₀ code c) :
      Serves L app config c₀ (.running code (served L app config)) c
  | await {b : ResultType} {k : b.El → ServerCode σ .void} {st : Stack (server L app config) .void}
      {t : Coroutine ServerOp ServerOp.Answer Exn b.El} {c : Conn σ}
      (hst : Nested.Denotes (server.coros L app config) (awaiting L app config k) st t)
      (h : Awaits L app config c₀ b k t c) : Serves L app config c₀ st c
  | leaving (r : Except Exn ResultType.void.El) :
      Serves L app config c₀ (.returning r (served L app config)) (c₀.finish r)
  | left (r : Except Exn ResultType.void.El) :
      Serves L app config c₀
        (.running (ServerCode.onValue (b := .void) (fun v ↦ .coro (.ret v)) r) .none) (c₀.finish r)
  | ended (r : Except Exn ResultType.void.El) :
      Serves L app config c₀ (.returning r .none) (c₀.finish r)

/-! ## One answer -/

/-- The answer `x` takes the machine from `c` to `c'`, and what has been done from `c₀` to
`c₀'`. -/
structure Follows (L : Llhttp σ) (app : App) (config : AppConfig)
    (x : Σ op : ServerOp, op.Answer) (c₀ c c₀' c' : Conn σ) : Prop where
  log : c₀'.log.map Entry.op = c₀.log.map Entry.op ++ if x.1.logged then [x.1] else []
  streamRef : c₀'.streamRef = x.1.streamRef c₀.streamRef
  run : Machine.run (Conn.step L app config) c (ServerOp.event x).toList = some c'

variable {c₀ c : Conn σ}

theorem Awaits.point {b : ResultType} {k : b.El → ServerCode σ .void}
    {t : Coroutine ServerOp ServerOp.Answer Exn b.El} (h : Awaits L app config c₀ b k t c)
    {r : Except Exn b.El} (hr : t = .ended r) :
    Point L app config c₀ (ServerCode.onValue k r) c := by
  cases h with
  | reading => exact absurd hr (call_ne_ended _ _ r)
  | dispatching keepAlive task =>
    rcases task with res | e | ⟨op, k⟩
    · rw [ended_eq_ret_iff.mp hr.symm]
      exact .dispatched keepAlive res
    · rw [ended_eq_raise_iff.mp hr.symm]
      exact .raise e
    · exact absurd hr (call_ne_ended _ _ r)
  | responding keepAlive bytes => exact absurd hr (call_ne_ended _ _ r)
  | refusing => exact absurd hr (call_ne_ended _ _ r)
  | returned h =>
    rw [ended_eq_ret_iff.mp hr.symm]
    exact h

theorem reply_eq_some {α : Type} {op : ServerOp}
    {k : op.Answer → Coroutine ServerOp ServerOp.Answer Exn α} {x : Σ op : ServerOp, op.Answer}
    {t : Coroutine ServerOp ServerOp.Answer Exn α} (h : (call op k).reply x = some t) :
    ∃ y, x = ⟨op, y⟩ ∧ t = k y := by
  obtain ⟨op', y⟩ := x
  rw [reply] at h
  split at h
  · rename_i hop
    subst hop
    exact ⟨y, rfl, (Option.some.inj h).symm⟩
  · exact absurd h (Option.some_ne_none _).symm

theorem Awaits.reply {b : ResultType} {k : b.El → ServerCode σ .void}
    {t t' : Coroutine ServerOp ServerOp.Answer Exn b.El} (h : Awaits L app config c₀ b k t c)
    {x : Σ op : ServerOp, op.Answer} (ht : t.reply x = some t')
    (hx : ServerOp.IsTrue c₀.streamRef x) :
    ∃ c₀' c', Awaits L app config c₀' b k t' c' ∧ Follows L app config x c₀ c c₀' c' := by
  cases h with
  | reading =>
    obtain ⟨data, rfl, rfl⟩ := reply_eq_some ht
    exact ⟨c₀.read, _, .returned (.received data), ⟨List.map_append, rfl, rfl⟩⟩
  | dispatching keepAlive task =>
    rcases task with res | e | ⟨op, k⟩
    · exact absurd ht (Option.some_ne_none _).symm
    · exact absurd ht (Option.some_ne_none _).symm
    · obtain ⟨y, rfl, rfl⟩ := reply_eq_some ht
      rcases op with _ | stage | _ | bytes | _ | _
      · refine ⟨{ c₀ with phase := .awaiting keepAlive k }, _, .dispatching keepAlive (k y),
          ⟨(List.append_nil _).symm, rfl, rfl⟩⟩
      · exact ⟨c₀.record (.enter stage), _, .dispatching keepAlive (k y),
          ⟨List.map_append, rfl, rfl⟩⟩
      · obtain rfl : y = c₀.streamRef := hx
        exact ⟨c₀, _, .dispatching keepAlive (k c₀.streamRef),
          ⟨(List.append_nil _).symm, rfl, rfl⟩⟩
      · exact ⟨{ c₀.record (.upgrade bytes) with phase := .upgrading keepAlive k }, _,
          .dispatching keepAlive (k y), ⟨List.map_append, rfl, rfl⟩⟩
      · exact ⟨{ c₀.record .handOver with streamRef := false }, _, .dispatching keepAlive (k y),
          ⟨List.map_append, rfl, rfl⟩⟩
      · exact Empty.elim y
  | responding keepAlive bytes =>
    obtain ⟨(success : Bool), rfl, rfl⟩ := reply_eq_some ht
    refine ⟨{ c₀.record (.write bytes) with phase := .responding keepAlive }, _,
      .returned (.responded keepAlive success), ⟨List.map_append, rfl, ?_⟩⟩
    exact (Machine.run_singleton _ _).trans (apply_ite some _ _ _).symm
  | refusing =>
    obtain ⟨success, rfl, rfl⟩ := reply_eq_some ht
    exact ⟨c₀.refuse, _, .returned (.refused success), ⟨List.map_append, rfl, rfl⟩⟩
  | returned h => exact absurd ht (Option.some_ne_none _).symm

/-! ## Steps of the connection handler -/

/-- What has been done is the same. -/
def Idle (c₀ c₀' : Conn σ) : Prop := c₀'.log = c₀.log ∧ c₀'.streamRef = c₀.streamRef

theorem Serves.begin_await {b : ResultType} {k : b.El → ServerCode σ .void} {t : Coro b}
    (h : Awaits L app config c₀ b k t.denote c) :
    Serves L app config c₀ (.running (.coro t) (awaiting L app config k)) c :=
  .await (Nested.denotes_begin t) h

theorem Point.step {code : ServerCode σ .void} (h : Point L app config c₀ code c)
    {st : Stack (server L app config) .void}
    (hst : (Stack.running code (served L app config)).step = some st) :
    ∃ c₀', Serves L app config c₀' st c ∧ Idle c₀ c₀' := by
  change Stack.act (served L app config) (ServerCode.next L app config code) = some st at hst
  cases h with
  | loop =>
    obtain rfl := Option.some.inj hst
    exact ⟨c₀, .begin_await .reading, rfl, rfl⟩
  | received data =>
    rcases data with _ | data
    · obtain rfl := Option.some.inj hst
      exact ⟨c₀, .leaving _, rfl, rfl⟩
    · rw [ServerCode.next] at hst
      rw [Conn.afterRead]
      by_cases hempty : data = []
      · rw [if_pos hempty] at hst ⊢
        obtain rfl := Option.some.inj hst
        exact ⟨c₀, .leaving _, rfl, rfl⟩
      · rw [if_neg hempty] at hst ⊢
        rcases hfeed : c₀.parser.feed L data with ⟨e | parsed, p⟩
        · by_cases he : e = .incomplete
          · rw [hfeed, he] at hst
            obtain rfl := Option.some.inj hst
            rw [Conn.receive_of_incomplete (he ▸ hfeed)]
            exact ⟨{ c₀ with parser := p }, .begin_await .reading, rfl, rfl⟩
          · rw [hfeed] at hst
            rw [Conn.receive_of_error hfeed he]
            refine ⟨{ c₀ with parser := p }, ?_, rfl, rfl⟩
            rcases e with _ | _ | _ | _ | _
            · exact absurd rfl he
            all_goals
              obtain rfl := Option.some.inj hst
              exact .begin_await .refusing
        · rw [hfeed] at hst
          exact absurd hst (Option.some_ne_none _).symm
  | attached keepAlive req =>
    obtain rfl := Option.some.inj hst
    refine ⟨c₀, .begin_await ?_, rfl, rfl⟩
    rw [Coro.denote_dispatchWithPipeline]
    exact .dispatching keepAlive _
  | dispatched keepAlive res =>
    rw [ServerCode.next] at hst
    rw [Conn.conclude]
    by_cases hcode : res.statusCode = kStatusSwitchingProtocols
    · rw [if_pos hcode] at hst ⊢
      obtain rfl := Option.some.inj hst
      exact ⟨c₀, .leaving _, rfl, rfl⟩
    · rw [if_neg hcode] at hst ⊢
      obtain rfl := Option.some.inj hst
      exact ⟨c₀, .begin_await (.responding keepAlive _), rfl, rfl⟩
  | responded keepAlive success =>
    rw [ServerCode.next] at hst
    by_cases hboth : success ∧ keepAlive
    · rw [if_pos hboth] at hst ⊢
      obtain rfl := Option.some.inj hst
      exact ⟨{ c₀ with parser := c₀.parser.reset L }, .begin_await .reading, rfl, rfl⟩
    · rw [if_neg hboth] at hst ⊢
      obtain rfl := Option.some.inj hst
      exact ⟨c₀, .leaving _, rfl, rfl⟩
  | refused success =>
    obtain rfl := Option.some.inj hst
    exact ⟨c₀, .leaving _, rfl, rfl⟩
  | raise e =>
    obtain rfl := Option.some.inj hst
    exact ⟨c₀, .leaving _, rfl, rfl⟩

/-- The request that has been read gets the stream. -/
theorem Point.answer {code : ServerCode σ .void} (h : Point L app config c₀ code c)
    {st : Stack (server L app config) .void} {x : Σ op : ServerOp, op.Answer}
    (hst : (Stack.running code (served L app config)).answer x = some st) :
    ∃ c₀' c', Serves L app config c₀' st c' ∧ Follows L app config x c₀ c c₀' c' := by
  obtain ⟨k, hnext, rfl⟩ := Stack.answer_running hst
  obtain ⟨op, y⟩ := x
  change ServerCode.next L app config code = .call op k at hnext
  cases h with
  | received data =>
    rcases data with _ | data
    · cases hnext
    · rw [ServerCode.next] at hnext
      rw [Conn.afterRead]
      by_cases hempty : data = []
      · rw [if_pos hempty] at hnext
        cases hnext
      · rw [if_neg hempty] at hnext ⊢
        rcases hfeed : c₀.parser.feed L data with ⟨e | parsed, p⟩
        · rw [hfeed] at hnext
          rcases e with _ | _ | _ | _ | _ <;> cases hnext
        · rw [hfeed] at hnext
          cases hnext
          rw [Conn.receive_of_ok hfeed]
          let c₁ : Conn σ := { c₀ with parser := p }
          exact ⟨c₁.accept (c₁.requestOf app config parsed), _,
            .point (.attached parsed.keepAlive _), ⟨List.map_append, rfl, rfl⟩⟩
  | loop => cases hnext
  | attached keepAlive req => cases hnext
  | dispatched keepAlive res =>
    rw [ServerCode.next] at hnext
    split at hnext <;> cases hnext
  | responded keepAlive success =>
    rw [ServerCode.next] at hnext
    split at hnext <;> cases hnext
  | refused success => cases hnext
  | raise e => cases hnext

/-! ## Runs -/

/-- Without an answer the machine stays where it is. -/
theorem Serves.step {st st' : Stack (server L app config) .void} (h : Serves L app config c₀ st c)
    (hst : st.step = some st') : ∃ c₀', Serves L app config c₀' st' c ∧ Idle c₀ c₀' := by
  cases h with
  | begin hparser =>
    obtain rfl := Option.some.inj hst
    rw [← hparser]
    exact ⟨c₀, .point .loop, rfl, rfl⟩
  | point h => exact h.step hst
  | await hdenotes h =>
    rcases hdenotes.step hst with hdenotes' | ⟨r, rfl, rfl⟩
    · exact ⟨c₀, .await hdenotes' h, rfl, rfl⟩
    · obtain rfl := Option.some.inj hst
      exact ⟨c₀, .point (h.point rfl), rfl, rfl⟩
  | leaving r =>
    obtain rfl := Option.some.inj hst
    exact ⟨c₀, .left r, rfl, rfl⟩
  | left r =>
    rcases r with e | v
    all_goals
      obtain rfl := Option.some.inj hst
      exact ⟨c₀, .ended _, rfl, rfl⟩
  | ended r => exact absurd hst (Option.some_ne_none _).symm

/-- An answer is one step of the machine, if it has waited for it. -/
theorem Serves.answer {st st' : Stack (server L app config) .void}
    (h : Serves L app config c₀ st c) {x : Σ op : ServerOp, op.Answer}
    (hst : st.answer x = some st') (hx : ServerOp.IsTrue c₀.streamRef x) :
    ∃ c₀' c', Serves L app config c₀' st' c' ∧ Follows L app config x c₀ c c₀' c' := by
  cases h with
  | begin hparser => exact absurd hst (Option.some_ne_none _).symm
  | point h => exact h.answer hst
  | await hdenotes h =>
    obtain ⟨t', ht', hdenotes'⟩ := hdenotes.answer hst
    obtain ⟨c₀', c', h', hfollows⟩ := h.reply ht' hx
    exact ⟨c₀', c', .await hdenotes' h', hfollows⟩
  | leaving r => exact absurd hst (Option.some_ne_none _).symm
  | left r => rcases r with e | v <;> exact absurd hst (Option.some_ne_none _).symm
  | ended r => exact absurd hst (Option.some_ne_none _).symm

theorem run_serves {ds : List (Option (Σ op : ServerOp, op.Answer))} :
    ∀ {c₀ c : Conn σ} {st st' : Stack (server L app config) .void}, Serves L app config c₀ st c →
      Machine.run Stack.move st ds = some st' →
      ServerOp.Truthful c₀.streamRef ds.reduceOption →
      ∃ c₀' c', Serves L app config c₀' st' c' ∧
        c₀'.log.map Entry.op
          = c₀.log.map Entry.op ++ (ds.reduceOption.map Sigma.fst).filter ServerOp.logged ∧
        Machine.run (Conn.step L app config) c (ds.reduceOption.filterMap ServerOp.event)
          = some c' := by
  induction ds with
  | nil =>
    intro c₀ c st st' h hrun _
    obtain rfl := Option.some.inj hrun
    exact ⟨c₀, c, h, (List.append_nil _).symm, rfl⟩
  | cons d ds ih =>
    intro c₀ c st st' h hrun htrue
    obtain ⟨st₁, hmove, hrest⟩ := Machine.run_cons_eq_some_iff.mp hrun
    rcases d with _ | x
    · rw [List.reduceOption_cons_of_none] at htrue ⊢
      obtain ⟨c₁, h₁, hlog, href⟩ := h.step hmove
      rw [← href] at htrue
      rw [← hlog]
      exact ih h₁ hrest htrue
    · rw [List.reduceOption_cons_of_some] at htrue ⊢
      obtain ⟨hx, htrue⟩ := htrue
      obtain ⟨c₁, c₂, h₁, hfollows⟩ := h.answer hmove hx
      rw [← hfollows.streamRef] at htrue
      obtain ⟨c₀', c', h', hlog, hrun'⟩ := ih h₁ hrest htrue
      refine ⟨c₀', c', h', ?_, ?_⟩
      · rw [hlog, hfollows.log, List.map_cons, List.filter_cons, List.append_assoc]
        split <;> rfl
      · have hcons : (x :: ds.reduceOption).filterMap ServerOp.event
            = (ServerOp.event x).toList ++ ds.reduceOption.filterMap ServerOp.event := by
          rw [List.filterMap_cons]
          cases ServerOp.event x <;> rfl
        rw [hcons]
        exact Machine.run_trans hfollows.run hrun'

theorem log_prefix_advance (keepAlive : Bool) (task : Task Response) (c : Conn σ) :
    c.log <+: (c.advance keepAlive task).log := by
  obtain ⟨entries, hlog, -⟩ := Conn.log_advance keepAlive task c
  exact ⟨entries, hlog.symm⟩

theorem log_prefix_receive (c : Conn σ) (data : Bytes) :
    c.log <+: (c.receive L app config data).log := by
  rcases hfeed : c.parser.feed L data with ⟨e | parsed, p⟩
  · by_cases he : e = .incomplete
    · rw [Conn.receive_of_incomplete (he ▸ hfeed)]
      exact List.prefix_append _ _
    · rw [Conn.receive_of_error hfeed he]
      exact List.prefix_append _ _
  · rw [Conn.receive_of_ok hfeed]
    let c₁ : Conn σ := { c with parser := p }
    let req := c₁.requestOf app config parsed
    exact (List.prefix_append c.log [.dispatch req]).trans
      (log_prefix_advance parsed.keepAlive _ (c₁.accept req))

theorem Point.log_prefix {code : ServerCode σ .void} (h : Point L app config c₀ code c) :
    c₀.log <+: c.log := by
  cases h with
  | loop => exact List.prefix_append _ _
  | received data =>
    rcases data with _ | data
    · exact List.prefix_refl _
    · rw [Conn.afterRead]
      split
      · exact List.prefix_refl _
      · exact log_prefix_receive c₀ data
  | attached keepAlive req => exact log_prefix_advance keepAlive _ c₀
  | dispatched keepAlive res => exact log_prefix_advance keepAlive (.ret res) c₀
  | responded keepAlive success =>
    split
    · exact List.prefix_append _ _
    · exact List.prefix_refl _
  | refused success => exact List.prefix_refl _
  | raise e => exact List.prefix_refl _

theorem Serves.log_prefix {st : Stack (server L app config) .void}
    (h : Serves L app config c₀ st c) : c₀.log <+: c.log := by
  cases h with
  | begin hparser => exact List.prefix_append _ _
  | point h => exact h.log_prefix
  | await hdenotes h =>
    cases h with
    | reading => exact List.prefix_append _ _
    | dispatching keepAlive task => exact log_prefix_advance keepAlive task c₀
    | responding keepAlive bytes => exact List.prefix_append _ _
    | refusing => exact List.prefix_append _ _
    | returned h => exact h.log_prefix
  | leaving r => exact List.prefix_refl _
  | left r => exact List.prefix_refl _
  | ended r => exact List.prefix_refl _

theorem Serves.of_ended {r : Except Exn ResultType.void.El}
    (h : Serves L app config c₀ (.returning r .none) c) : c = c₀.finish r := by
  generalize hst : (Stack.returning r .none : Stack (server L app config) .void) = st at h
  cases h with
  | begin hparser => cases hst
  | point h => cases hst
  | await hdenotes h =>
    cases hdenotes with
    | running hover => cases hst
    | returning hover =>
      cases hst
      generalize hbase : awaiting L app config _ = base at hover
      cases hover with
      | base => cases hbase
  | leaving r => cases hst
  | left r => cases hst
  | ended r =>
    cases hst
    rfl

end Threads

namespace TaskRuntime

open Threads

variable {σ : Type} {L : Llhttp σ} {app : App} {config : AppConfig} {ρ τ κ : Type}

/-- What has been done for a connection is what its `Conn` logs, up to what comes next. -/
structure Agrees (L : Llhttp σ) (app : App) (config : AppConfig)
    (xs : List (Σ op : ServerOp, op.Answer)) (c : Conn σ) : Prop where
  run : Conn.run L app config (Conn.start L app config) (xs.filterMap ServerOp.event) = some c
  log : (xs.map Sigma.fst).filter ServerOp.logged <+: c.log.map Entry.op

/-- The same, and nothing comes next: the `Conn` has ended with `r`. -/
structure Ends (L : Llhttp σ) (app : App) (config : AppConfig)
    (xs : List (Σ op : ServerOp, op.Answer)) (c : Conn σ) (r : Except Exn Unit) : Prop where
  run : Conn.run L app config (Conn.start L app config) (xs.filterMap ServerOp.event) = some c
  log : c.log.map Entry.op = (xs.map Sigma.fst).filter ServerOp.logged
  phase : c.phase = .finished r

/-- A call stack of a connection and its `Conn`. -/
theorem agrees_of_leads {r : ρ} {xs : List (Σ op : ServerOp, op.Answer)}
    {st : Stack (server L app config) .void}
    (h : Leads (server.connection L app config) r xs st) (hxs : ServerOp.Truthful false xs) :
    ∃ c, Agrees L app config xs c ∧ ∀ res, st.Ended res → Ends L app config xs c res := by
  obtain ⟨ds, hrun, rfl⟩ := h
  let c₀ : Conn σ := ⟨.create L config.parserConfig app.platform.growth, false, [], .reading⟩
  have hbegin : Serves L app config c₀ (initial (server.connection L app config) r) c₀.read :=
    .begin rfl
  obtain ⟨c₀', c, hserves, hlog, hrun'⟩ := run_serves hbegin hrun hxs
  rw [List.map_nil, List.nil_append] at hlog
  refine ⟨c, ⟨hrun', ?_⟩, ?_⟩
  · rw [← hlog]
    exact hserves.log_prefix.map Entry.op
  · rintro res rfl
    obtain rfl := hserves.of_ended
    exact ⟨hrun', hlog, rfl⟩

variable [DecidableEq ρ] [DecidableEq τ] [DecidableEq κ] {cpuPool : Bool} {kind : ServerOp → Kind}

/-- **Every connection of the server is a run of its own machine**, whatever the threads do and
however the other connections interleave with it. When its coroutine is gone, the machine has
returned; when the process has been terminated, a machine has ended in that exception. -/
theorem conn_of_run {es : List (TaskRuntime.Event ServerOp ServerOp.Answer ρ τ κ)}
    {s : TaskRuntime (server L app config) ρ τ κ}
    (hrun : Machine.run (step cpuPool kind (server.connection L app config)) start es = some s)
    (htrue : ∀ r ∈ s.called, ServerOp.Truthful false (s.answersOf r)) :
    (∀ r ∈ s.called, ∃ c, Agrees L app config (s.answersOf r) c ∧
      (r ∉ s.activities.map Activity.root → Ends L app config (s.answersOf r) c (.ok ()))) ∧
    ∀ e, s.fate = .terminated e →
      ∃ r ∈ s.called, ∃ c, Ends L app config (s.answersOf r) c (.error e) := by
  obtain ⟨⟨chains, calls, h⟩, hfate⟩ := inv_of_run hrun
  constructor
  · intro r hr
    obtain ⟨c, hagrees, hends⟩ := agrees_of_leads (h.leads r hr) (htrue r hr)
    refine ⟨c, hagrees, fun hgone ↦ ?_⟩
    obtain ⟨v, hv⟩ := h.ended r hr hgone
    exact hends _ hv
  · intro e he
    rw [he] at hfate
    obtain ⟨r, hr, st, hleads, hended⟩ := hfate
    obtain ⟨c, -, hends⟩ := agrees_of_leads hleads (htrue r hr)
    exact ⟨r, hr, c, hends _ hended⟩

/-- Two connections on one thread; the client of the first one closes it. -/
def hangUp : List (TaskRuntime.Event ServerOp ServerOp.Answer Bool Unit Unit) :=
  [.call true, .take 0 (.io ()), .step 0, .step 0, .step 0, .call false, .take 1 (.io ()), .step 1,
    .complete 0 ⟨.read, none⟩, .step 1, .step 1, .take 0 (.io ()), .step 0, .step 0, .step 0,
    .step 0, .step 0]

theorem conn_of_run_hangUp :
    ∃ s, Machine.run (step true (fun _ ↦ .external)
        (server.connection (Llhttp.replay getScript) (middlewareApp []) {})) start hangUp = some s ∧
      s.activities.map Activity.root = [false] ∧
      ∃ c, Ends (Llhttp.replay getScript) (middlewareApp []) {} (s.answersOf true) c (.ok ()) := by
  obtain ⟨s, hrun, hactivities, hcalled, htrue, hfalse⟩ : ∃ s,
      Machine.run (step true (fun _ ↦ .external)
        (server.connection (Llhttp.replay getScript) (middlewareApp []) {})) start hangUp = some s ∧
      s.activities.map Activity.root = [false] ∧ s.called = [true, false] ∧
      s.answersOf true = [⟨.read, none⟩] ∧ s.answersOf false = [] :=
    ⟨_, rfl, rfl, rfl, rfl, rfl⟩
  have hall : ∀ r ∈ s.called, ServerOp.Truthful false (s.answersOf r) := by
    rintro (_ | _) -
    · rw [hfalse]
      trivial
    · rw [htrue]
      exact ⟨trivial, trivial⟩
  have hr : true ∈ s.called := by
    rw [hcalled]
    exact List.mem_cons_self
  obtain ⟨c, -, hends⟩ := (conn_of_run hrun hall).1 true hr
  refine ⟨s, hrun, hactivities, c, hends ?_⟩
  rw [hactivities]
  decide

end TaskRuntime

end Aevox
