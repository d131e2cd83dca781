import Aevox.Library.PreferenceWalk
import Aevox.Router.RouteTable

/-!
# What dispatch finds

The walk of `dispatch` is a greedy walk through the words the trie is inside of: a segment offers
its own static label first, then the parameter, then the wildcard, and when the segments are used
up the wildcard is still on offer. `dispatch_build` says so, with the trie replaced by the list of
registrations.

From there on nothing is about tries. A registered shape that matches a path is reached exactly when
it is *preferred*: nowhere along it, nor behind its end, does some registration offer a better
label. When shapes overlap, a matching one can lose to a registration that leads nowhere, and then
the request is answered with 404 or 405.
-/

namespace Aevox

open PreferenceWalk

/-- The labels `dispatch` tries, in this order. -/
def pathScheme : Scheme Label Bytes where
  choices seg := [.static seg, .param, .wildcard]
  final := [.wildcard]
  stops l := decide (l = .wildcard)

theorem matchesPath_iff_fits {ls : List Label} : ∀ {ts : List Bytes},
    MatchesPath ls ts ↔ pathScheme.Fits ls ts := by
  induction ls with
  | nil =>
    intro ts
    rcases ts with _ | ⟨t, ts⟩
    · simp [MatchesPath, Scheme.Fits]
    · simp [MatchesPath, Scheme.Fits]
  | cons l ls ih =>
    intro ts
    rcases l with s | _ | _
    · rcases ts with _ | ⟨t, ts⟩
      · rcases ls with _ | ⟨l', ls⟩ <;> simp [MatchesPath, Scheme.Fits, pathScheme]
      · rw [Scheme.fits_cons_cons, MatchesPath, ih]
        simp [pathScheme, eq_comm]
    · rcases ts with _ | ⟨t, ts⟩
      · rcases ls with _ | ⟨l', ls⟩ <;> simp [MatchesPath, Scheme.Fits, pathScheme]
      · rw [Scheme.fits_cons_cons, MatchesPath, ih]
        simp [pathScheme]
    · rcases ls with _ | ⟨l', ls⟩
      · rcases ts with _ | ⟨t, ts⟩ <;> simp [MatchesPath, Scheme.Fits, pathScheme]
      · rcases ts with _ | ⟨t, ts⟩ <;> simp [MatchesPath, Scheme.Fits, pathScheme]

theorem pathScheme_walk_nil (inside : List Label → Bool) (w : List Label) :
    pathScheme.walk inside w []
      = if inside (w ++ [.wildcard]) then some (w ++ [.wildcard]) else some w := by
  rw [Scheme.walk]
  rcases h : inside (w ++ [.wildcard]) <;> simp [pathScheme, h]

theorem pathScheme_walk_cons (inside : List Label → Bool) (w : List Label) (t : Bytes)
    (ts : List Bytes) :
    pathScheme.walk inside w (t :: ts)
      = if inside (w ++ [.static t]) then pathScheme.walk inside (w ++ [.static t]) ts
        else if inside (w ++ [.param]) then pathScheme.walk inside (w ++ [.param]) ts
        else if inside (w ++ [.wildcard]) then some (w ++ [.wildcard]) else none := by
  rw [Scheme.walk]
  have hchoices : pathScheme.choices t = [.static t, .param, .wildcard] := rfl
  have hstatic : pathScheme.stops (.static t) = false := rfl
  have hparam : pathScheme.stops .param = false := rfl
  have hwildcard : pathScheme.stops .wildcard = true := rfl
  rw [hchoices, List.find?_cons, List.find?_cons, List.find?_cons]
  by_cases hs : inside (w ++ [.static t]) = true
  · simp [hs, hstatic]
  · by_cases hp : inside (w ++ [.param]) = true
    · simp [hs, hp, hparam]
    · by_cases hw : inside (w ++ [.wildcard]) = true <;> simp [hs, hp, hw, hwildcard]

/-! ## The walk -/

namespace TrieNode

variable {η : Type}

theorem inside_concat {root node : TrieNode η} {w : List Label} (hw : nodeAt w root = some node)
    (l : Label) : root.inside (w ++ [l]) = (node.child l).isSome := by
  rw [inside, nodeAt_concat, hw]
  rfl

theorem nodeAt_concat_of {root node : TrieNode η} {w : List Label} (hw : nodeAt w root = some node)
    (l : Label) : nodeAt (w ++ [l]) root = node.child l := by
  rw [nodeAt_concat, hw]
  rfl

theorem walk_cons (node : TrieNode η) (captured : List (Bytes × Bytes)) (seg rest : Bytes)
    (segs : List (Bytes × Bytes)) :
    node.walk captured ((seg, rest) :: segs) =
      match node.child (.static seg), node.child .param, node.child .wildcard with
      | some c, _, _ => c.walk captured segs
      | none, some c, _ => c.walk (captured ++ [(c.segment, seg)]) segs
      | none, none, some c => some ⟨c, captured ++ [(c.segment, rest)], true⟩
      | none, none, none => none := by
  rcases hstatic : node.child (.static seg) with _ | _
  · rcases hparam : node.child .param with _ | _
    · rcases hwildcard : node.child .wildcard with _ | _ <;>
        simp only [child] at hstatic hparam hwildcard <;>
        simp only [walk, hstatic, hparam, hwildcard]
    · simp only [child] at hstatic hparam
      simp only [walk, hstatic, hparam]
  · simp only [child] at hstatic
    simp only [walk, hstatic]

/-- **The walk of `dispatch` is the greedy walk** through the words of the trie. -/
theorem walk_eq {root : TrieNode η} {segs : List (Bytes × Bytes)} :
    ∀ {node : TrieNode η} {w : List Label} {captured : List (Bytes × Bytes)},
    nodeAt w root = some node →
    (node.walk captured segs).map (fun a ↦ a.advance.node)
      = (pathScheme.walk root.inside w (segs.map Prod.fst)).bind fun v ↦ nodeAt v root := by
  induction segs with
  | nil =>
    intro node w captured hw
    rw [walk, List.map_nil, pathScheme_walk_nil, inside_concat hw]
    rcases hc : node.child .wildcard with _ | c
    · have hc' : node.wildcardChild = none := hc
      simp [Arrival.advance, hc', hw]
    · have hc' : node.wildcardChild = some c := hc
      simp [Arrival.advance, hc', nodeAt_concat_of hw, hc]
  | cons seg segs ih =>
    intro node w captured hw
    obtain ⟨seg, rest⟩ := seg
    have hnext : ∀ {l c}, node.child l = some c → nodeAt (w ++ [l]) root = some c :=
      fun hc ↦ (nodeAt_concat_of hw _).trans hc
    rw [walk_cons, List.map_cons, pathScheme_walk_cons, inside_concat hw, inside_concat hw,
      inside_concat hw]
    rcases hs : node.child (.static seg) with _ | c
    · rcases hp : node.child .param with _ | c
      · rcases hc : node.child .wildcard with _ | c
        · rfl
        · exact (hnext hc).symm
      · exact ih (hnext hp)
    · exact ih (hnext hs)

end TrieNode

/-! ## Dispatch in terms of the registrations -/

variable {η : Type}

/-- The router with these registrations. -/
def routerOf (regs : List (Registration η)) : Router η := ⟨some (build regs)⟩

/-- The handler a dispatch invokes. -/
def Dispatch.handler? : Dispatch η → Option η
  | .invoke handler _ => some handler
  | .respond _ => none

theorem Dispatch.handler?_eq_some_iff {d : Dispatch η} {handler : η} :
    d.handler? = some handler ↔ ∃ captured, d = .invoke handler captured := by
  rcases d with ⟨h, captured⟩ | res
  · simp [handler?]
  · simp [handler?]

theorem Router.handler?_conclude (method : Fin kMethodCount) (a : TrieNode.Arrival η) :
    (Router.conclude method a).handler? = a.node.handlers method := by
  rw [Router.conclude]
  rcases a.node.handlers method with _ | handler
  · dsimp only
    split <;> rfl
  · rfl

/-- **Dispatch refines the greedy walk** over the registered shapes. -/
theorem dispatch_build (regs : List (Registration η)) {method : HttpMethod}
    (hm : method.index < kMethodCount) (path : Bytes) :
    ((routerOf regs).dispatch method path).handler?
      = (pathScheme.walk (known regs) [] (segments path)).bind fun v ↦
          latest regs ⟨method.index, hm⟩ v := by
  have hknown : (build regs).inside = known regs := funext (inside_build regs)
  have hwalk : ((build regs).walk [] (splitPath path)).map (fun a ↦ a.advance.node) = _ :=
    TrieNode.walk_eq (TrieNode.nodeAt_nil (build regs))
  rw [hknown] at hwalk
  have hhandlers : ∀ v, latest regs ⟨method.index, hm⟩ v
      = (TrieNode.nodeAt v (build regs)).bind fun n ↦ n.handlers ⟨method.index, hm⟩ :=
    fun v ↦ (handlerAt_build regs v _).symm
  have hbind : (pathScheme.walk (known regs) [] (segments path)).bind
        (fun v ↦ latest regs ⟨method.index, hm⟩ v)
      = ((build regs).walk [] (splitPath path)).bind
          fun a ↦ a.advance.node.handlers ⟨method.index, hm⟩ := by
    rw [funext hhandlers, ← Option.bind_assoc, segments, ← hwalk, Option.bind_map]
    rfl
  rw [hbind, routerOf, Router.dispatch]
  simp only [hm, dif_pos]
  rcases (build regs).walk [] (splitPath path) with _ | a
  · rfl
  · exact Router.handler?_conclude _ _

/-! ## Completeness -/

/-- The handler of a shape for requests with this method. -/
def HandledBy (regs : List (Registration η)) (method : HttpMethod) (word : List Label)
    (handler : η) : Prop :=
  ∃ hm : method.index < kMethodCount, latest regs ⟨method.index, hm⟩ word = some handler

/-- At every segment, the label of the shape is the best some registration knows for it there: no
registered pattern or group prefix has a static label that equals the segment where the shape has a
parameter or a wildcard, nor a parameter where it has a wildcard. -/
def Greedy (regs : List (Registration η)) (ls : List Label) (ts : List Bytes) : Prop :=
  pathScheme.Greedy (known regs) [] ls ts

/-- Along a shape, no registration knows a better label for the segment at hand: no static one that
equals the segment where the shape has a parameter or a wildcard, no parameter where it has a
wildcard, and no wildcard behind its end. -/
def Preferred (regs : List (Registration η)) (ls : List Label) (ts : List Bytes) : Prop :=
  pathScheme.Unrivalled (known regs) [] ls ts

theorem known_of_prefix {regs : List (Registration η)} {u v : List Label} (h : u <+: v)
    (hv : known regs v = true) : known regs u = true := by
  rw [← inside_build] at hv ⊢
  exact TrieNode.inside_of_prefix h hv

theorem known_word {regs : List (Registration η)} {r : Registration η} (hr : r ∈ regs) :
    known regs r.word = true := by
  rw [known, Bool.or_eq_true, List.any_eq_true]
  exact Or.inr ⟨r, hr, decide_eq_true (List.prefix_refl _)⟩

theorem Registration.word_of_sets {r : Registration η} {method : Fin kMethodCount}
    {word : List Label} (h : r.sets method word ≠ none) : r.word = word := by
  rcases r with ⟨scope, m, segs, handler⟩ | ⟨scope, segs⟩
  · rw [sets] at h
    by_cases hslot : word = shape (scope ++ segs) ∧ method = m
    · exact hslot.1.symm
    · exact absurd (if_neg hslot) h
  · exact absurd rfl h

theorem known_of_latest {regs : List (Registration η)} {method : Fin kMethodCount}
    {word : List Label} {handler : η} (h : latest regs method word = some handler) :
    known regs word = true := by
  obtain ⟨r, hr, hsets⟩ := exists_sets_of_latest h
  obtain rfl := Registration.word_of_sets (hsets ▸ Option.some_ne_none _)
  exact known_word hr

/-- The greedy walk ends at a registered shape exactly when that shape matches and is preferred. -/
theorem walk_known_eq_some_iff {regs : List (Registration η)} {word : List Label}
    (hword : known regs word = true) {ts : List Bytes} :
    pathScheme.walk (known regs) [] ts = some word
      ↔ MatchesPath word ts ∧ Preferred regs word ts := by
  have h : pathScheme.walk (known regs) [] ts = some ([] ++ word) ↔ _ :=
    Scheme.walk_eq_some_iff (fun huv hv ↦ known_of_prefix huv hv) hword
  rw [List.nil_append] at h
  rw [h, matchesPath_iff_fits, Preferred]

theorem preferred_of_greedy {regs : List (Registration η)} {word : List Label} {ts : List Bytes}
    (h : Greedy regs word ts) (hend : known regs (word ++ [.wildcard]) = false) :
    Preferred regs word ts := by
  refine Scheme.unrivalled_of_greedy h fun k hk ↦ ?_
  rw [List.mem_singleton.mp hk]
  exact hend

/-- **Completeness of dispatch.** A handler that is invoked is that of a pattern which matches the
path and is the greedy choice at every segment. Conversely the handler of such a pattern is invoked,
if no registration continues the pattern with a wildcard. -/
theorem dispatch_complete (regs : List (Registration η)) (method : HttpMethod) (path : Bytes) :
    (∀ handler captured, (routerOf regs).dispatch method path = .invoke handler captured →
      ∃ word, HandledBy regs method word handler ∧ MatchesPath word (segments path) ∧
        Greedy regs word (segments path)) ∧
    ∀ word handler, HandledBy regs method word handler → MatchesPath word (segments path) →
      Greedy regs word (segments path) → known regs (word ++ [.wildcard]) = false →
      ∃ captured, (routerOf regs).dispatch method path = .invoke handler captured := by
  constructor
  · intro handler captured hinvoke
    by_cases hm : method.index < kMethodCount
    · -- the walk ends at one word, whose node has the handler
      have hhandler : ((routerOf regs).dispatch method path).handler? = some handler :=
        Dispatch.handler?_eq_some_iff.mpr ⟨captured, hinvoke⟩
      rw [dispatch_build regs hm, Option.bind_eq_some_iff] at hhandler
      obtain ⟨word, hwalk, hlatest⟩ := hhandler
      obtain ⟨hmatch, hpref⟩ := (walk_known_eq_some_iff (known_of_latest hlatest)).mp hwalk
      exact ⟨word, ⟨hm, hlatest⟩, hmatch, Scheme.greedy_of_unrivalled hpref⟩
    · simp [routerOf, Router.dispatch, hm] at hinvoke
  · rintro word handler ⟨hm, hlatest⟩ hmatch hgreedy hend
    have hwalk := (walk_known_eq_some_iff (known_of_latest hlatest)).mpr
      ⟨hmatch, preferred_of_greedy hgreedy hend⟩
    rw [← Dispatch.handler?_eq_some_iff, dispatch_build regs hm, hwalk]
    exact hlatest

/-- `GET /a/b/c` strands `GET /a/b/d`, which `/a/{x}/d` matches. -/
theorem not_complete_of_static_rival :
    ¬∀ (regs : List (Registration ℕ)) (method : HttpMethod) (path : Bytes),
      (∃ word handler, HandledBy regs method word handler ∧
        MatchesPath word (segments path)) →
      ∃ handler captured, (routerOf regs).dispatch method path = .invoke handler captured := by
  intro h
  obtain ⟨handler, captured, hinvoke⟩ := h
    [.route [] kGet [.static (ascii "a"), .static (ascii "b"), .static (ascii "c")] (some 1),
      .route [] kGet [.static (ascii "a"), .param (ascii "x") .none, .static (ascii "d")] (some 2)]
    .get (ascii "/a/b/d")
    ⟨[.static (ascii "a"), .param, .static (ascii "d")], 2, ⟨by decide, by decide⟩, rfl, rfl,
      trivial⟩
  have hnone : none = some handler := congrArg Dispatch.handler? hinvoke
  cases hnone

/-! ## Static routes -/

/-- A registered all-static shape is walked to its end, and from there into a wildcard, if any. -/
theorem walk_static {inside : List Label → Bool}
    (hclosed : ∀ {u v : List Label}, u <+: v → inside v = true → inside u = true)
    {q : List Bytes} : ∀ {w : List Label}, inside (w ++ q.map .static) = true →
    pathScheme.walk inside w q =
      if inside (w ++ q.map .static ++ [.wildcard]) then some (w ++ q.map .static ++ [.wildcard])
      else some (w ++ q.map .static) := by
  induction q with
  | nil =>
    intro w _
    rw [List.map_nil, List.append_nil, pathScheme_walk_nil]
  | cons t q ih =>
    intro w hin
    have hsplit : w ++ (t :: q).map Label.static = w ++ [.static t] ++ q.map .static := by simp
    rw [hsplit] at hin ⊢
    rw [pathScheme_walk_cons, if_pos (hclosed (List.prefix_append _ _) hin), ih hin]

/-- **Static routes win, except against a wildcard below them.** A request whose path has exactly
the segments of an all-static pattern is dispatched to that pattern's handler exactly when nothing
is registered for the pattern followed by a wildcard, for whatever method, or that wildcard's
handler for this method is the same one. -/
theorem dispatch_static_iff {regs : List (Registration η)} {method : HttpMethod}
    (hm : method.index < kMethodCount) {q : List Bytes} {handler : η}
    (hq : latest regs ⟨method.index, hm⟩ (q.map .static) = some handler) {path : Bytes}
    (hpath : segments path = q) :
    (∃ captured, (routerOf regs).dispatch method path = .invoke handler captured)
      ↔ known regs (q.map .static ++ [.wildcard]) = false ∨
        latest regs ⟨method.index, hm⟩ (q.map .static ++ [.wildcard]) = some handler := by
  have hwalk := walk_static (w := []) (fun huv hv ↦ known_of_prefix huv hv) (known_of_latest hq)
  rw [List.nil_append] at hwalk
  rw [← Dispatch.handler?_eq_some_iff, dispatch_build regs hm, hpath, hwalk]
  by_cases hwild : known regs (q.map .static ++ [.wildcard]) = true
  · simp [hwild]
  · simp [hwild, hq]

/-- `GET /users` next to `GET /users/{id}` is dispatched to its own handler. -/
theorem dispatch_static_users :
    ∃ captured, (routerOf [.route [] kGet [.static (ascii "users")] (some 1),
      .route [] kGet [.static (ascii "users"), .param (ascii "id") .int] (some 2)]).dispatch .get
        (ascii "/users") = .invoke 1 captured :=
  (dispatch_static_iff (q := [ascii "users"]) (by decide) (by decide) (by decide)).mpr
    (Or.inl (by decide))

/-- `GET /files` loses to `GET /files/{path...}`. -/
theorem not_static_of_wildcard_below :
    ¬∀ (regs : List (Registration ℕ)) (method : HttpMethod) (hm : method.index < kMethodCount)
      (q : List Bytes) (handler : ℕ) (path : Bytes),
      latest regs ⟨method.index, hm⟩ (q.map .static) = some handler → segments path = q →
      ∃ captured, (routerOf regs).dispatch method path = .invoke handler captured := by
  intro h
  have hinvoke := h
    [.route [] kGet [.static (ascii "files")] (some 1),
      .route [] kGet [.static (ascii "files"), .wildcard (ascii "path")] (some 2)]
    .get (by decide) [ascii "files"] 1 (ascii "/files") (by decide) (by decide)
  rw [← Dispatch.handler?_eq_some_iff] at hinvoke
  revert hinvoke
  decide

end Aevox
