import Aevox.App.Upgrade
import Aevox.Router.Groups

/-!
# The topic a session begins with

`upgrade_websocket` takes the first parameter of the request as the topic of the new session. The
parameters are in an unordered map, so the first one is any of them, and those whose name begins
with an underscore are passed over as the framework's own. It is the leftmost one of the pattern for
certain only if all that can be found have its value (`startsWithLeftmost_iff`). For a pattern and
all its requests this is a matter of the names alone (`SoleTopicName`).
-/

namespace Aevox

/-! ## The first one in any order -/

/-- What is found first in a list is, over all its orders, anything that can be found in it. -/
theorem forall_perm_find?_iff {α : Type*} {p : α → Bool} {l : List α} {P : Option α → Prop} :
    (∀ l' : List α, l'.Perm l → P (l'.find? p)) ↔
      (∀ x ∈ l, p x = true → P (some x)) ∧ ((∀ x ∈ l, ¬p x = true) → P none) := by
  classical
  constructor
  · intro h
    refine ⟨fun x hx hpx ↦ ?_, fun hnone ↦ ?_⟩
    · have hfirst := h (x :: l.erase x) (List.perm_cons_erase hx).symm
      rwa [List.find?_cons_of_pos hpx] at hfirst
    · have hfirst := h l (List.Perm.refl l)
      rwa [List.find?_eq_none.mpr hnone] at hfirst
  · rintro ⟨hsome, hnone⟩ l' hperm
    rcases hfind : l'.find? p with _ | x
    · exact hnone fun x hx ↦ List.find?_eq_none.mp hfind x (hperm.symm.subset hx)
    · exact hsome x (hperm.subset (List.mem_of_find?_eq_some hfind)) (List.find?_some hfind)

/-! ## The topic -/

/-- The name is not passed over: 95 is the underscore. -/
def IsTopicName (name : Bytes) : Prop := name ≠ [] ∧ name.head? ≠ some 95

instance (name : Bytes) : Decidable (IsTopicName name) := inferInstanceAs (Decidable (_ ∧ _))

/-- The loop of `upgrade_websocket` over the parameters, in the order of the map. -/
def initialTopic : List (Bytes × Bytes) → Bytes
  | [] => []
  | (k, v) :: params => if IsTopicName k then v else initialTopic params

/-- `current_topic_` of a session. -/
structure SessionTopic where
  currentTopic : Bytes

/-- `WebSocketSession::create` -/
def SessionTopic.create (initialTopic : Bytes) : SessionTopic := ⟨initialTopic⟩

/-- `WebSocket::topic`, of a handle that may be empty. -/
def wsTopic : Option SessionTopic → Bytes
  | none => []
  | some session => session.currentTopic

/-- `topic()` of the handle that `upgrade_websocket` returns, until the handle subscribes to
another: the map iterates over the parameters in this order. -/
def upgradedTopic (params : List (Bytes × Bytes)) : Bytes :=
  wsTopic (some (SessionTopic.create (initialTopic params)))

theorem initialTopic_eq (params : List (Bytes × Bytes)) :
    initialTopic params =
      ((params.find? fun kv ↦ IsTopicName kv.1).map Prod.snd).getD [] := by
  induction params with
  | nil => rfl
  | cons kv params ih =>
    rw [initialTopic, List.find?_cons]
    by_cases hname : IsTopicName kv.1
    · rw [if_pos hname, decide_eq_true hname]
      rfl
    · rw [if_neg hname, decide_eq_false hname, ih]

/-! ## The leftmost parameter -/

/-- What `App::ws` registers for a parsed pattern. -/
def wsRoute (pattern : List Segment) (registered : Option WebSocketHandler) :
    Registration Handler :=
  .route [] kGet pattern (some (wsHandler registered))

variable {regs : List (Registration Handler)} {route : Registration Handler} {req : Request}

/-- The request is one for the route. -/
def Reaches (regs : List (Registration Handler)) (route : Registration Handler) (req : Request) :
    Prop :=
  req.method = .get ∧ invokedRoute regs kGet req.path = some route

/-- The router passes the request on with parameters that give the session, in whatever order they
are, the value of the leftmost parameter. -/
def StartsWithLeftmost (regs : List (Registration Handler)) (route : Registration Handler)
    (req : Request) : Prop :=
  ∃ handler captured, (routerOf regs).dispatch req.method req.path = .invoke handler captured ∧
    ∀ params : List (Bytes × Bytes), params.Perm (req.withParams captured).params →
      (pathPieces route.word req.path).head? = some (upgradedTopic params)

/-- The names of a route's parameters, as the registrations that were first there spell them. -/
def topicNames (regs : List (Registration Handler)) (route : Registration Handler) : List Bytes :=
  spelledNames (firstSpelling regs) [] route.word

/-- What a path has at the parameters, with their names. -/
def namedPieces (regs : List (Registration Handler)) (route : Registration Handler)
    (path : Bytes) : List (Bytes × Bytes) :=
  (topicNames regs route).zip (pathPieces route.word path)

/-- Every name that is not passed over stands, where it stands first, for the first value, and if
all are passed over the first value is empty. -/
def Decided (captured : List (Bytes × Bytes)) : Prop :=
  ∃ first ∈ captured.head?,
    (∀ kv ∈ captured, IsTopicName kv.1 →
      (captured.find? fun kv' ↦ kv'.1 = kv.1).map Prod.snd = some first.2) ∧
    ((∀ kv ∈ captured, ¬IsTopicName kv.1) → first.2 = [])

/-- Whatever the order, the parameters of the request begin the session with this topic. -/
theorem forall_upgradedTopic_iff (req : Request) (captured : List (Bytes × Bytes))
    (value : Bytes) :
    (∀ params : List (Bytes × Bytes), params.Perm (req.withParams captured).params →
        value = upgradedTopic params) ↔
      (∀ kv ∈ captured, IsTopicName kv.1 →
        (captured.find? fun kv' ↦ kv'.1 = kv.1).map Prod.snd = some value) ∧
      ((∀ kv ∈ captured, ¬IsTopicName kv.1) → value = []) := by
  have hfirst : ∀ kv ∈ captured, ∃ v,
      captured.find? (fun kv' ↦ kv'.1 = kv.1) = some (kv.1, v) ∧
        (kv.1, v) ∈ (req.withParams captured).params := by
    intro kv hkv
    obtain ⟨kv', hkv'⟩ : ∃ kv', captured.find? (fun kv' ↦ kv'.1 = kv.1) = some kv' := by
      rw [← Option.isSome_iff_exists, List.find?_isSome]
      exact ⟨kv, hkv, decide_eq_true rfl⟩
    have hkey : kv'.1 = kv.1 := by simpa using List.find?_some hkv'
    obtain ⟨k, v⟩ := kv'
    obtain rfl : k = kv.1 := hkey
    exact ⟨v, hkv', (Request.mem_params_withParams req captured).mpr hkv'⟩
  have htopic : ∀ params, upgradedTopic params =
      ((params.find? fun kv ↦ IsTopicName kv.1).map Prod.snd).getD [] := initialTopic_eq
  simp only [htopic]
  rw [forall_perm_find?_iff (P := fun found ↦ value = (found.map Prod.snd).getD [])]
  simp only [decide_eq_true_eq, Option.map_some, Option.getD_some, Option.map_none,
    Option.getD_none]
  refine and_congr ?_ ?_
  · constructor
    · intro h kv hkv hname
      obtain ⟨v, hfind, hmem⟩ := hfirst kv hkv
      rw [hfind, h _ hmem hname]
      rfl
    · intro h kv hkv hname
      have hfind := (Request.mem_params_withParams req captured).mp hkv
      have hvalue := h kv (List.mem_of_find?_eq_some hfind) hname
      rw [hfind] at hvalue
      exact (Option.some.inj hvalue).symm
  · refine imp_congr_left ⟨fun h kv hkv hname ↦ ?_, fun h kv hkv ↦ ?_⟩
    · obtain ⟨v, -, hmem⟩ := hfirst kv hkv
      exact h _ hmem hname
    · exact h kv (List.mem_of_find?_eq_some ((Request.mem_params_withParams req captured).mp hkv))

theorem dispatch_of_reaches (h : Reaches regs route req) :
    ∃ handler, (routerOf regs).dispatch req.method req.path =
      .invoke handler (namedPieces regs route req.path) := by
  obtain ⟨hget, hroute⟩ := h
  obtain ⟨handler, -, hinvoke⟩ :=
    dispatch_invokedRoute (by decide : HttpMethod.get.index < kMethodCount) hroute
  rw [trail_eq_spelledNames (TrieNode.nodeAt_nil _)] at hinvoke
  exact ⟨handler, hget ▸ hinvoke⟩

theorem exists_leftmost (hparams : extractParamNames route.pattern ≠ [])
    (h : Reaches regs route req) : ∃ name names value values,
      topicNames regs route = name :: names ∧ pathPieces route.word req.path = value :: values ∧
        names.length = values.length := by
  have hwalk := (invokedRoute_eq_some_iff.mp h.2).1
  have hmatch := (walk_known_sound hwalk).2.1
  have hnames := length_trail_build hwalk req.path
  rw [trail_eq_spelledNames (TrieNode.nodeAt_nil _)] at hnames
  rw [route.word_eq] at hmatch
  have hpieces := length_extractParamNames hmatch req.path
  rw [← route.word_eq] at hpieces
  obtain ⟨value, values, hvalues⟩ : ∃ value values,
      pathPieces route.word req.path = value :: values := by
    refine List.exists_cons_of_ne_nil fun hnil ↦ hparams ?_
    rw [hnil] at hpieces
    exact List.eq_nil_of_length_eq_zero hpieces
  rw [hvalues] at hnames
  obtain ⟨name, names, hcons⟩ := List.exists_cons_of_length_eq_add_one hnames
  rw [hcons] at hnames
  exact ⟨name, names, value, values, hcons, hvalues, Nat.succ.inj hnames⟩

/-- **One request.** -/
theorem startsWithLeftmost_iff (hparams : extractParamNames route.pattern ≠ [])
    (h : Reaches regs route req) :
    StartsWithLeftmost regs route req ↔ Decided (namedPieces regs route req.path) := by
  obtain ⟨name, names, value, values, hnames, hvalues, -⟩ := exists_leftmost hparams h
  obtain ⟨handler, hinvoke⟩ := dispatch_of_reaches h
  have hhead : (namedPieces regs route req.path).head? = some (name, value) := by
    rw [namedPieces, hnames, hvalues]
    rfl
  rw [StartsWithLeftmost, Decided, hinvoke, hvalues, List.head?_cons, hhead]
  constructor
  · rintro ⟨handler', captured, heq, htopic⟩
    obtain ⟨rfl, rfl⟩ := Dispatch.invoke.inj heq
    refine ⟨_, rfl, (forall_upgradedTopic_iff req _ _).mp fun params hperm ↦ ?_⟩
    exact Option.some.inj (htopic params hperm)
  · rintro ⟨first, hfirst, hcond⟩
    obtain rfl := Option.some.inj hfirst
    refine ⟨handler, _, rfl, fun params hperm ↦ congrArg some ?_⟩
    exact (forall_upgradedTopic_iff req _ _).mpr hcond params hperm

/-! ## All requests of a pattern -/

/-- No other name than the leftmost one counts. -/
def SoleTopicName (names : List Bytes) : Prop :=
  ∃ name ∈ names.head?, IsTopicName name ∧ ∀ name' ∈ names, IsTopicName name' → name' = name

theorem decided_of_soleTopicName {names values : List Bytes} {name value : Bytes}
    (hsole : SoleTopicName (name :: names)) : Decided ((name :: names).zip (value :: values)) := by
  obtain ⟨name, hname, htopic, hsole⟩ := hsole
  obtain rfl := Option.some.inj hname
  refine ⟨_, rfl, fun kv hkv hkvname ↦ ?_, fun hnone ↦ absurd htopic (hnone _ List.mem_cons_self)⟩
  rw [hsole kv.1 (List.of_mem_zip hkv).1 hkvname, List.zip_cons_cons, List.find?_cons,
    decide_eq_true rfl]
  rfl

/-- Values that are pairwise distinct tell which name decides. -/
theorem soleTopicName_of_decided {names values : List Bytes} (hlen : names.length = values.length)
    (hvalues : values.Nodup) (hdecided : Decided (names.zip values))
    (hsome : ∃ name ∈ names, IsTopicName name) : SoleTopicName names := by
  obtain ⟨first, hfirst, hall, -⟩ := hdecided
  rcases names with _ | ⟨name, names⟩
  · cases hfirst
  rcases values with _ | ⟨value, values⟩
  · cases hfirst
  obtain rfl := Option.some.inj hfirst
  have hsole : ∀ name' ∈ name :: names, IsTopicName name' → name' = name := by
    intro name' hmem hname'
    rw [← List.map_fst_zip hlen.le, List.mem_map] at hmem
    obtain ⟨kv, hkv, rfl⟩ := hmem
    obtain ⟨kv', hfind, hvalue⟩ := Option.map_eq_some_iff.mp (hall kv hkv hname')
    have hkey : kv'.1 = kv.1 := by simpa using List.find?_some hfind
    rw [← hkey]
    -- what is found has the first value, so it stands first
    rcases List.mem_cons.mp (List.mem_of_find?_eq_some hfind) with rfl | htail
    · rfl
    · have hmem := (List.of_mem_zip htail).2
      rw [hvalue] at hmem
      exact absurd hmem (List.nodup_cons.mp hvalues).1
  obtain ⟨name', hmem, hname'⟩ := hsome
  exact ⟨name, rfl, hsole name' hmem hname' ▸ hname', hsole⟩

/-- **All requests.** -/
theorem forall_startsWithLeftmost_iff (hparams : extractParamNames route.pattern ≠ [])
    (hreached : Reaches regs route req) :
    (∀ req, Reaches regs route req → StartsWithLeftmost regs route req) ↔
      SoleTopicName (topicNames regs route) ∨
        (∀ name ∈ topicNames regs route, ¬IsTopicName name) ∧
          ∀ req, Reaches regs route req → (pathPieces route.word req.path).head? = some [] := by
  constructor
  · intro hall
    by_cases hnone : ∀ name ∈ topicNames regs route, ¬IsTopicName name
    · refine Or.inr ⟨hnone, fun req hreq ↦ ?_⟩
      obtain ⟨name, names, value, values, hnames, hvalues, -⟩ := exists_leftmost hparams hreq
      obtain ⟨first, hfirst, -, hempty⟩ := (startsWithLeftmost_iff hparams hreq).mp (hall req hreq)
      rw [namedPieces, hnames, hvalues] at hfirst hempty
      obtain rfl := Option.some.inj hfirst
      rw [hvalues, List.head?_cons, ← hempty fun kv hkv ↦ ?_]
      exact hnone _ (hnames ▸ (List.of_mem_zip hkv).1)
    · refine Or.inl ?_
      push Not at hnone
      obtain ⟨req', hmethod, hroute, hdistinct⟩ :=
        exists_distinct_pieces hreached.2
      have hreq' : Reaches regs route req' := ⟨hmethod.trans hreached.1, hroute⟩
      obtain ⟨name, names, value, values, hnames, hvalues, hlen⟩ := exists_leftmost hparams hreq'
      refine soleTopicName_of_decided ?_ hdistinct
        ((startsWithLeftmost_iff hparams hreq').mp (hall req' hreq')) hnone
      rw [hnames, hvalues]
      exact congrArg (· + 1) hlen
  · intro hcond req hreq
    rw [startsWithLeftmost_iff hparams hreq]
    obtain ⟨name, names, value, values, hnames, hvalues, -⟩ := exists_leftmost hparams hreq
    rcases hcond with hsole | ⟨hnone, hempty⟩
    · rw [namedPieces, hnames, hvalues]
      exact decided_of_soleTopicName (hnames ▸ hsole)
    · refine ⟨(name, value), by rw [namedPieces, hnames, hvalues]; rfl, fun kv hkv hname ↦ ?_,
        fun _ ↦ ?_⟩
      · exact absurd hname (hnone _ (List.of_mem_zip hkv).1)
      · rw [← Option.some.injEq, ← hempty req hreq, hvalues]
        rfl

/-- **When the topic is the leftmost parameter**, for one request of a WebSocket route and for all
of them. -/
theorem ws_topic_iff {pattern : List Segment} {registered : Option WebSocketHandler}
    (hparams : extractParamNames pattern ≠ [])
    (hreached : Reaches regs (wsRoute pattern registered) req) :
    (StartsWithLeftmost regs (wsRoute pattern registered) req ↔
      Decided (namedPieces regs (wsRoute pattern registered) req.path)) ∧
    ((∀ req, Reaches regs (wsRoute pattern registered) req →
        StartsWithLeftmost regs (wsRoute pattern registered) req) ↔
      SoleTopicName (topicNames regs (wsRoute pattern registered)) ∨
        (∀ name ∈ topicNames regs (wsRoute pattern registered), ¬IsTopicName name) ∧
          ∀ req, Reaches regs (wsRoute pattern registered) req →
            (pathPieces (wsRoute pattern registered).word req.path).head? = some []) :=
  ⟨startsWithLeftmost_iff hparams hreached, forall_startsWithLeftmost_iff hparams hreached⟩

/-- Somebody in a room: `/chat/{room}/{user}`. -/
def chatPattern : List Segment :=
  [.static (ascii "chat"), .param (ascii "room") .none, .param (ascii "user") .none]

/-- A request for it. -/
def chatRequest : Request := { parsed := { method := ascii "GET", target := ascii "/chat/a/b" } }

/-- The route, with a handler that does nothing. -/
def chatRoute : Registration Handler := wsRoute chatPattern (some ⟨fun _ ↦ .ok ()⟩)

theorem reaches_chat : Reaches [chatRoute] chatRoute chatRequest := ⟨rfl, rfl⟩

/-- Two names that count. -/
theorem ws_topic_chat :
    (StartsWithLeftmost [chatRoute] chatRoute chatRequest ↔
      Decided (namedPieces [chatRoute] chatRoute chatRequest.path)) ∧
    ((∀ req, Reaches [chatRoute] chatRoute req → StartsWithLeftmost [chatRoute] chatRoute req) ↔
      SoleTopicName (topicNames [chatRoute] chatRoute) ∨
        (∀ name ∈ topicNames [chatRoute] chatRoute, ¬IsTopicName name) ∧
          ∀ req, Reaches [chatRoute] chatRoute req →
            (pathPieces chatRoute.word req.path).head? = some []) :=
  ws_topic_iff (by decide) reaches_chat

/-- If the map comes to the user first, the user is the topic. -/
theorem not_startsWithLeftmost : ¬∀ (regs : List (Registration Handler)) (pattern : List Segment)
    (registered : Option WebSocketHandler) (req : Request), extractParamNames pattern ≠ [] →
    Reaches regs (wsRoute pattern registered) req →
    StartsWithLeftmost regs (wsRoute pattern registered) req := by
  intro h
  have hstarts : StartsWithLeftmost [chatRoute] chatRoute chatRequest :=
    h _ chatPattern _ chatRequest (by decide) reaches_chat
  obtain ⟨first, hfirst, hall, -⟩ := (startsWithLeftmost_iff (by decide) reaches_chat).mp hstarts
  have hpieces : namedPieces [chatRoute] chatRoute chatRequest.path =
      [(ascii "room", ascii "a"), (ascii "user", ascii "b")] := rfl
  rw [hpieces] at hfirst hall
  obtain rfl := Option.some.inj hfirst
  have hvalue := hall (ascii "user", ascii "b") (by decide) (by decide)
  revert hvalue
  decide

end Aevox
