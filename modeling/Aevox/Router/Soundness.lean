import Aevox.Router.Matching

/-!
# Soundness of dispatch

Completeness says which requests find a handler. Soundness is about what is found, and it is read
off the node the walk arrives at. That node has a word which matches the path, so the handler there
is the one registered last for this word; the pieces captured on the way are cut from the path at
the word's parameters (`walk_captured`); and the bits of its method mask are the methods that have
been registered for the word. These are the methods it has handlers for, unless an empty function
has been registered, which is a handler that nobody can call but leaves its bit in the mask
(`dispatch_sound_iff`).

What a pattern should capture is said without the walk and without the loop that splits the path:
`pathPieces` reads the text of the path along the pattern's labels.
-/

namespace Aevox

open PreferenceWalk

/-! ## The pieces of a path -/

/-- The text at the parameters of a shape, from left to right: a parameter takes one segment, a
wildcard takes the text from the next segment on as it stands. -/
def pathPieces : List Label → Bytes → List Bytes
  | [], _ => []
  | .static _ :: ls, text => pathPieces ls ((text.dropWhile (· = slash)).dropWhile (· ≠ slash))
  | .param :: ls, text =>
    (text.dropWhile (· = slash)).takeWhile (· ≠ slash) ::
      pathPieces ls ((text.dropWhile (· = slash)).dropWhile (· ≠ slash))
  | .wildcard :: _, text => [text.dropWhile (· = slash)]

theorem pathPieces_cons_slash (ls : List Label) (text : Bytes) :
    pathPieces ls (slash :: text) = pathPieces ls text := by
  have hdrop : (slash :: text).dropWhile (· = slash) = text.dropWhile (· = slash) := by simp
  rcases ls with _ | ⟨_ | _ | _, ls⟩
  · rfl
  · rw [pathPieces, pathPieces, hdrop]
  · rw [pathPieces, pathPieces, hdrop]
  · rw [pathPieces, pathPieces, hdrop]

/-- The pieces of a path that has been split: every segment comes with the text from there on. -/
def cutAlong : List Label → List (Bytes × Bytes) → List Bytes
  | [], _ => []
  | .static _ :: ls, segs => cutAlong ls segs.tail
  | .param :: ls, segs => segs.head?.elim [] Prod.fst :: cutAlong ls segs.tail
  | .wildcard :: _, segs => [segs.head?.elim [] Prod.snd]

theorem pathPieces_nil_eq_cutAlong (ls : List Label) : pathPieces ls [] = cutAlong ls [] := by
  induction ls with
  | nil => rfl
  | cons l ls ih =>
    cases l with
    | static s => exact ih
    | param => exact congrArg ([] :: ·) ih
    | wildcard => rfl

/-- The loop that splits the path loses nothing a pattern could capture. -/
theorem cutAlong_splitFrom {fuel : ℕ} : ∀ {ls : List Label} {text : Bytes}, text.length ≤ fuel →
    cutAlong ls (splitFrom fuel text) = pathPieces ls text := by
  induction fuel with
  | zero =>
    intro ls text h
    rw [List.eq_nil_of_length_eq_zero (Nat.le_zero.mp h), pathPieces_nil_eq_cutAlong]
    rfl
  | succ fuel ih =>
    intro ls text h
    rcases text with _ | ⟨b, text⟩
    · rw [pathPieces_nil_eq_cutAlong]
      rfl
    · rw [List.length_cons] at h
      rw [splitFrom]
      by_cases hb : b = slash
      · have hseg : (b :: text).takeWhile (· ≠ slash) = [] := by simp [hb]
        simp only [hseg, if_true]
        rw [ih (by omega), hb, pathPieces_cons_slash]
      · -- the first segment starts here
        have hseg : (b :: text).takeWhile (· ≠ slash) ≠ [] := by simp [hb]
        have hhere : (b :: text).dropWhile (· = slash) = b :: text := by simp [hb]
        have hrest : ∀ ls', cutAlong ls' (splitFrom fuel
              ((b :: text).drop (((b :: text).takeWhile (· ≠ slash)).length + 1)))
            = pathPieces ls' ((b :: text).dropWhile (· ≠ slash)) := by
          intro ls'
          have hdrop : (b :: text).drop (((b :: text).takeWhile (· ≠ slash)).length + 1)
              = ((b :: text).dropWhile (· ≠ slash)).drop 1 := by
            rw [← List.drop_drop, drop_length_takeWhile]
          rw [hdrop, ih]
          · rcases hd : (b :: text).dropWhile (· ≠ slash) with _ | ⟨c, rest⟩
            · rfl
            · have hc : c = slash := by
                have hne : (b :: text).dropWhile (· ≠ slash) ≠ [] := by
                  rw [hd]
                  exact List.cons_ne_nil c rest
                have hhead := List.head_dropWhile_not _ hne
                simp only [hd, List.head_cons] at hhead
                simpa using hhead
              rw [hc, pathPieces_cons_slash]
              rfl
          · rw [← hdrop, List.length_drop, List.length_cons]
            omega
        simp only [hseg, if_false]
        rcases ls with _ | ⟨_ | _ | _, ls⟩
        · rfl
        · rw [cutAlong, pathPieces, hhere, List.tail_cons, hrest]
        · rw [cutAlong, pathPieces, hhere, List.tail_cons, hrest]
          rfl
        · rw [cutAlong, pathPieces, hhere]
          rfl

theorem cutAlong_splitPath (ls : List Label) (path : Bytes) :
    cutAlong ls (splitPath path) = pathPieces ls path := by
  rw [splitPath]
  rcases path with _ | ⟨b, path⟩
  · exact cutAlong_splitFrom (le_refl _)
  · by_cases hb : b = slash
    · subst hb
      rw [List.head?_cons, if_pos rfl, cutAlong_splitFrom (by simp), pathPieces_cons_slash]
      rfl
    · rw [List.head?_cons, if_neg (by simpa using hb), cutAlong_splitFrom (le_refl _)]

example : cutAlong [.static (ascii "f"), .param, .wildcard] (splitPath (ascii "//f/a//b//c/"))
    = [ascii "a", ascii "b//c/"] := by decide

/-! ## The names on the way -/

namespace TrieNode

variable {η : Type}

/-- The names of the parameter and wildcard nodes a word passes. -/
def trail : List Label → TrieNode η → List Bytes
  | [], _ => []
  | .static literal :: word, node => (node.child (.static literal)).elim [] (trail word)
  | .param :: word, node => (node.child .param).elim [] fun c ↦ c.segment :: trail word c
  | .wildcard :: word, node => (node.child .wildcard).elim [] fun c ↦ c.segment :: trail word c

/-- **Where the walk arrives, and with what**: the greedy word's node, with the pieces of the path
under the names on the way. -/
theorem walk_captured {root : TrieNode η} {segs : List (Bytes × Bytes)} : ∀ {node : TrieNode η}
    {w : List Label} {captured : List (Bytes × Bytes)} {a : Arrival η},
    nodeAt w root = some node → node.walk captured segs = some a →
    ∃ word, pathScheme.walk root.inside w (segs.map Prod.fst) = some (w ++ word) ∧
      nodeAt word node = some a.advance.node ∧
      a.advance.captured = captured ++ (trail word node).zip (cutAlong word segs) := by
  induction segs with
  | nil =>
    intro node w captured a hw h
    obtain rfl := Option.some.inj h
    rw [List.map_nil, pathScheme_walk_nil, inside_concat hw]
    rcases hc : node.wildcardChild with _ | c
    · have hchild : node.child .wildcard = none := hc
      refine ⟨[], ?_, ?_, ?_⟩ <;> simp [Arrival.advance, hc, hchild, trail]
    · have hchild : node.child .wildcard = some c := hc
      refine ⟨[.wildcard], ?_, ?_, ?_⟩ <;>
        simp [Arrival.advance, hc, trail, hchild, nodeAt_cons, cutAlong]
  | cons seg segs ih =>
    intro node w captured a hw h
    obtain ⟨seg, rest⟩ := seg
    have hnext : ∀ {l c}, node.child l = some c → nodeAt (w ++ [l]) root = some c :=
      fun hc ↦ (nodeAt_concat_of hw _).trans hc
    have hassoc : ∀ (l : Label) (word : List Label), w ++ [l] ++ word = w ++ l :: word := by simp
    rw [walk_cons] at h
    rw [List.map_cons, pathScheme_walk_cons, inside_concat hw, inside_concat hw, inside_concat hw]
    rcases hs : node.child (.static seg) with _ | c
    · rcases hp : node.child .param with _ | c
      · rcases hc : node.child .wildcard with _ | c
        · simp [hs, hp, hc] at h
        · simp only [hs, hp, hc, Option.some.injEq] at h
          subst h
          refine ⟨[.wildcard], ?_, ?_, ?_⟩ <;>
            simp [Arrival.advance, trail, hc, nodeAt_cons, cutAlong]
      · simp only [hs, hp] at h
        obtain ⟨word, hwalk, hnode, hcap⟩ := ih (hnext hp) h
        refine ⟨.param :: word, ?_, ?_, ?_⟩
        · simpa [hassoc] using hwalk
        · rw [nodeAt_cons, hp]
          exact hnode
        · rw [hcap, trail, hp]
          simp [cutAlong]
    · simp only [hs] at h
      obtain ⟨word, hwalk, hnode, hcap⟩ := ih (hnext hs) h
      refine ⟨.static seg :: word, ?_, ?_, ?_⟩
      · simpa [hassoc] using hwalk
      · rw [nodeAt_cons, hs]
        exact hnode
      · rw [hcap, trail, hs]
        rfl

theorem length_trail {word : List Label} {ts : List Bytes} (hmatch : MatchesPath word ts) :
    ∀ {node n : TrieNode η}, nodeAt word node = some n →
      ∀ text, (trail word node).length = (pathPieces word text).length := by
  induction hmatch using matchesPath_induction with
  | nil => exact fun _ _ ↦ rfl
  | static s word ts _ ih =>
    intro node n hnode text
    rw [nodeAt_cons] at hnode
    obtain ⟨c, hc, hbelow⟩ := Option.bind_eq_some_iff.mp hnode
    rw [trail, hc, pathPieces]
    exact ih hbelow _
  | param t word ts _ ih =>
    intro node n hnode text
    rw [nodeAt_cons] at hnode
    obtain ⟨c, hc, hbelow⟩ := Option.bind_eq_some_iff.mp hnode
    rw [trail, hc, pathPieces]
    exact congrArg (· + 1) (ih hbelow _)
  | wildcard ts =>
    intro node n hnode text
    rw [nodeAt_cons] at hnode
    obtain ⟨c, hc, -⟩ := Option.bind_eq_some_iff.mp hnode
    rw [trail, hc, pathPieces]
    rfl

/-! ## The method mask -/

/-- The mask shows which methods have a handler. -/
def MaskAgrees (node : TrieNode η) : Prop :=
  ∀ i, node.methodMask.getLsbD i = true ↔ ∃ h : i < kMethodCount, (node.handlers ⟨i, h⟩).isSome

end TrieNode

variable {η : Type}

/-! ## The Allow header -/

/-- The methods a shape has a handler for, in the order of their indices. -/
def registeredMethods (regs : List (Registration η)) (word : List Label) :
    List (Fin kMethodCount) :=
  (List.finRange kMethodCount).filter fun m ↦ (latest regs m word).isSome

/-- The methods some route has been registered for under a shape, with a handler or without. -/
def listedMethods (regs : List (Registration η)) (word : List Label) : List (Fin kMethodCount) :=
  (List.finRange kMethodCount).filter fun m ↦ registered regs m word

private theorem intercalate_cons_eq (sep : Bytes) (names : List Bytes) : ∀ name : Bytes,
    sep.intercalate (name :: names) = name ++ (names.map (sep ++ ·)).flatten := by
  induction names with
  | nil => exact fun name ↦ by simp
  | cons m names ih =>
    intro name
    rw [List.intercalate_cons_cons, ih m]
    simp

/-- The loop of `build_allow_header` puts a separator between two names. -/
theorem foldl_eq_intercalate (sep : Bytes) {names : List Bytes} (hnames : [] ∉ names) :
    names.foldl (fun result name ↦ (if result = [] then result else result ++ sep) ++ name) []
      = sep.intercalate names := by
  have hacc : ∀ names : List Bytes, ∀ acc ≠ [],
      names.foldl (fun result name ↦ (if result = [] then result else result ++ sep) ++ name) acc
        = acc ++ (names.map (sep ++ ·)).flatten := by
    intro names
    induction names with
    | nil => simp
    | cons name names ih =>
      intro acc hne
      rw [List.foldl_cons, if_neg hne, ih _ (by simp [hne])]
      simp
  rcases names with _ | ⟨name, names⟩
  · rfl
  · have hne : name ≠ [] := fun h ↦ hnames (h ▸ List.mem_cons_self)
    rw [List.foldl_cons, if_pos rfl, List.nil_append, hacc names name hne, intercalate_cons_eq]

theorem buildAllowHeader_eq (methodMask : BitVec 8) :
    buildAllowHeader methodMask = (ascii ", ").intercalate
      (((List.range kMethodCount).filter fun i ↦ methodMask.getLsbD i).map
        (kMethodNames.getD · [])) := by
  rw [buildAllowHeader, ← foldl_eq_intercalate, List.foldl_map]
  intro h
  obtain ⟨i, hi, hname⟩ := List.mem_map.mp h
  have hlt := List.mem_range.mp (List.mem_filter.mp hi).1
  have hall : ∀ i < kMethodCount, kMethodNames.getD i [] ≠ [] := by decide
  exact hall i hlt hname

theorem handlers_eq_latest {regs : List (Registration η)} {word : List Label} {node : TrieNode η}
    (hnode : TrieNode.nodeAt word (build regs) = some node) (m : Fin kMethodCount) :
    node.handlers m = latest regs m word := by
  rw [← handlerAt_build, TrieNode.handlerAt, hnode]
  rfl

/-- **In every reachable trie, the mask of a node shows the methods registered for its shape.** -/
theorem getLsbD_methodMask {regs : List (Registration η)} {word : List Label} {node : TrieNode η}
    (hnode : TrieNode.nodeAt word (build regs) = some node) (i : ℕ) :
    node.methodMask.getLsbD i = true ↔
      ∃ h : i < kMethodCount, registered regs ⟨i, h⟩ word = true := by
  rw [← bitAt_build, TrieNode.bitAt, TrieNode.readAt, hnode]
  rfl

theorem buildAllowHeader_node {regs : List (Registration η)} {word : List Label}
    {node : TrieNode η} (hnode : TrieNode.nodeAt word (build regs) = some node) :
    buildAllowHeader node.methodMask = (ascii ", ").intercalate
      ((listedMethods regs word).map fun m ↦ kMethodNames.getD m.val []) := by
  have hrange : List.range kMethodCount = (List.finRange kMethodCount).map Fin.val := by decide
  rw [buildAllowHeader_eq, hrange, List.filter_map, List.map_map, listedMethods]
  refine congrArg _ (congrArg _ (List.filter_congr fun m _ ↦ ?_))
  rw [Bool.eq_iff_iff]
  exact (getLsbD_methodMask hnode m.val).trans ⟨fun ⟨_, h⟩ ↦ h, fun h ↦ ⟨m.isLt, h⟩⟩

theorem methodMask_ne_zero_iff {regs : List (Registration η)} {word : List Label}
    {node : TrieNode η} (hnode : TrieNode.nodeAt word (build regs) = some node) :
    node.methodMask ≠ 0 ↔ ∃ m, registered regs m word = true := by
  constructor
  · intro hne
    by_contra hnone
    refine hne (BitVec.eq_of_getLsbD_eq fun i _ ↦ ?_)
    refine Eq.trans ?_ BitVec.getLsbD_zero.symm
    rw [Bool.eq_false_iff, ne_eq, getLsbD_methodMask hnode]
    exact fun ⟨h, hregistered⟩ ↦ hnone ⟨⟨i, h⟩, hregistered⟩
  · rintro ⟨m, hm⟩ hzero
    have hbit := (getLsbD_methodMask hnode m.val).mpr ⟨m.isLt, hm⟩
    rw [hzero] at hbit
    exact Bool.false_ne_true (BitVec.getLsbD_zero.symm.trans hbit)

/-! ## Soundness -/

/-- The answer 405 that allows some methods. -/
def methodNotAllowedFor (methods : List (Fin kMethodCount)) : Response :=
  (Response.methodNotAllowed []).header (ascii "Allow") ((ascii ", ").intercalate
    (methods.map fun m ↦ kMethodNames.getD m.val []))

/-- The answer 405, with the methods a shape has a handler for. -/
def methodNotAllowedAt (regs : List (Registration η)) (word : List Label) : Response :=
  methodNotAllowedFor (registeredMethods regs word)

/-- What is answered at a shape. -/
def answerAt (regs : List (Registration η)) (method : Fin kMethodCount) (word : List Label)
    (captured : List (Bytes × Bytes)) : Dispatch η :=
  match latest regs method word with
  | some handler => .invoke handler captured
  | none =>
    if ∃ m, registered regs m word = true then
      .respond (methodNotAllowedFor (listedMethods regs word))
    else .respond (.notFound (ascii "404 Not Found"))

theorem conclude_eq_answerAt {regs : List (Registration η)} {word : List Label}
    {a : TrieNode.Arrival η} (hnode : TrieNode.nodeAt word (build regs) = some a.node)
    (method : Fin kMethodCount) :
    Router.conclude method a = answerAt regs method word a.captured := by
  rw [Router.conclude, answerAt, handlers_eq_latest hnode, buildAllowHeader_node hnode]
  simp only [methodMask_ne_zero_iff hnode]
  rfl

/-- **Dispatch, answer by answer.** The request's path and the registered shapes choose a word, and
the registrations for this word choose the answer. -/
theorem dispatch_eq (regs : List (Registration η)) (method : HttpMethod) (path : Bytes) :
    (routerOf regs).dispatch method path =
      if h : method.index < kMethodCount then
        match pathScheme.walk (known regs) [] (segments path) with
        | none => .respond (.notFound (ascii "404 Not Found"))
        | some word => answerAt regs ⟨method.index, h⟩ word
            ((TrieNode.trail word (build regs)).zip (pathPieces word path))
      else .respond (.badRequest (ascii "Unknown HTTP method")) := by
  rw [routerOf, Router.dispatch]
  by_cases hm : method.index < kMethodCount
  · have hknown : (build regs).inside = known regs := funext (inside_build regs)
    have hroot := TrieNode.nodeAt_nil (build regs)
    simp only [hm, dif_pos]
    rcases hwalk : (build regs).walk [] (splitPath path) with _ | a
    · -- a greedy word would have a node
      have hend : ((build regs).walk [] (splitPath path)).map (fun a ↦ a.advance.node) = _ :=
        TrieNode.walk_eq hroot
      rw [hwalk, hknown, ← segments] at hend
      rcases hgreedy : pathScheme.walk (known regs) [] (segments path) with _ | word
      · rfl
      · obtain ⟨-, -, hin⟩ := Scheme.walk_extends rfl hgreedy
        rw [← hknown, TrieNode.inside, Option.isSome_iff_exists] at hin
        obtain ⟨node, hnode⟩ := hin
        rw [hgreedy, Option.bind_some, hnode] at hend
        cases hend
    · obtain ⟨word, hgreedy, hnode, hcap⟩ := TrieNode.walk_captured hroot hwalk
      rw [hknown, List.nil_append, ← segments] at hgreedy
      rw [cutAlong_splitPath, List.nil_append] at hcap
      rw [hgreedy]
      dsimp only
      rw [← hcap]
      exact conclude_eq_answerAt hnode _
  · simp only [hm, dif_neg, not_false_iff]

/-- An answer other than 404 and 400 is the answer at the preferred shape. -/
theorem dispatch_eq_answerAt (regs : List (Registration η)) (method : HttpMethod) (path : Bytes)
    (hnotFound : (routerOf regs).dispatch method path
      ≠ .respond (.notFound (ascii "404 Not Found")))
    (hbad : (routerOf regs).dispatch method path
      ≠ .respond (.badRequest (ascii "Unknown HTTP method"))) :
    ∃ (hm : method.index < kMethodCount) (word : List Label),
      pathScheme.walk (known regs) [] (segments path) = some word ∧
        (routerOf regs).dispatch method path = answerAt regs ⟨method.index, hm⟩ word
          ((TrieNode.trail word (build regs)).zip (pathPieces word path)) := by
  rw [dispatch_eq] at hnotFound hbad ⊢
  by_cases hm : method.index < kMethodCount
  · simp only [hm, dif_pos] at hnotFound ⊢
    rcases hgreedy : pathScheme.walk (known regs) [] (segments path) with _ | word
    · rw [hgreedy] at hnotFound
      exact absurd rfl hnotFound
    · exact ⟨trivial, word, rfl, rfl⟩
  · rw [dif_neg hm] at hbad
    exact absurd rfl hbad

theorem walk_known_sound {regs : List (Registration η)} {word : List Label} {ts : List Bytes}
    (h : pathScheme.walk (known regs) [] ts = some word) :
    known regs word = true ∧ MatchesPath word ts ∧ Preferred regs word ts := by
  obtain ⟨-, -, hknown⟩ := Scheme.walk_extends rfl h
  exact ⟨hknown, (walk_known_eq_some_iff hknown).mp h⟩

theorem length_trail_build {regs : List (Registration η)} {word : List Label} {ts : List Bytes}
    (h : pathScheme.walk (known regs) [] ts = some word) (text : Bytes) :
    (TrieNode.trail word (build regs)).length = (pathPieces word text).length := by
  obtain ⟨hknown, hmatch, -⟩ := walk_known_sound h
  rw [← inside_build, TrieNode.inside, Option.isSome_iff_exists] at hknown
  obtain ⟨node, hnode⟩ := hknown
  exact TrieNode.length_trail hmatch hnode text

theorem invoke_sound {regs : List (Registration η)} {method : HttpMethod} {path : Bytes}
    {handler : η} {captured : List (Bytes × Bytes)}
    (hinvoke : (routerOf regs).dispatch method path = .invoke handler captured) :
    ∃ (hm : method.index < kMethodCount) (word : List Label),
      latest regs ⟨method.index, hm⟩ word = some handler ∧ MatchesPath word (segments path) ∧
        Preferred regs word (segments path) ∧ captured.map Prod.snd = pathPieces word path := by
  have hne : ∀ res, (routerOf regs).dispatch method path ≠ .respond res := by
    rw [hinvoke]
    exact fun _ ↦ nofun
  obtain ⟨hm, word, hgreedy, hanswer⟩ := dispatch_eq_answerAt regs method path (hne _) (hne _)
  obtain ⟨-, hmatch, hpref⟩ := walk_known_sound hgreedy
  rw [hanswer, answerAt] at hinvoke
  refine ⟨hm, word, ?_⟩
  rcases hlatest : latest regs ⟨method.index, hm⟩ word with _ | h
  · rw [hlatest] at hinvoke
    dsimp only at hinvoke
    split at hinvoke <;> cases hinvoke
  · rw [hlatest] at hinvoke
    cases hinvoke
    refine ⟨rfl, hmatch, hpref, ?_⟩
    exact List.map_snd_zip (le_of_eq (length_trail_build hgreedy path).symm)

/-- A 405 comes from a word that matches and is preferred and has no handler for this method. It
lists the methods that have been registered. -/
theorem methodNotAllowed_sound {regs : List (Registration η)} {method : HttpMethod} {path : Bytes}
    {res : Response} (hres : (routerOf regs).dispatch method path = .respond res)
    (hstatus : res.statusCode = kStatusMethodNotAllowed) :
    ∃ (hm : method.index < kMethodCount) (word : List Label),
      known regs word = true ∧ MatchesPath word (segments path) ∧
        Preferred regs word (segments path) ∧ (∃ m, registered regs m word = true) ∧
        latest regs ⟨method.index, hm⟩ word = none ∧
        res = methodNotAllowedFor (listedMethods regs word) := by
  have hne : ∀ res', res'.statusCode ≠ kStatusMethodNotAllowed →
      (routerOf regs).dispatch method path ≠ .respond res' := by
    intro res' hne h
    rw [hres] at h
    cases h
    exact hne hstatus
  obtain ⟨hm, word, hgreedy, hanswer⟩ :=
    dispatch_eq_answerAt regs method path (hne _ (by decide)) (hne _ (by decide))
  obtain ⟨hknown, hmatch, hpref⟩ := walk_known_sound hgreedy
  rw [hanswer, answerAt] at hres
  refine ⟨hm, word, hknown, hmatch, hpref, ?_⟩
  rcases hlatest : latest regs ⟨method.index, hm⟩ word with _ | h
  · rw [hlatest] at hres
    dsimp only at hres
    by_cases hany : ∃ m, registered regs m word = true
    · rw [if_pos hany] at hres
      cases hres
      exact ⟨hany, rfl, rfl⟩
    · rw [if_neg hany] at hres
      cases hres
      exact absurd hstatus (by decide)
  · rw [hlatest] at hres
    cases hres

theorem registered_of_latest {regs : List (Registration η)} {method : Fin kMethodCount}
    {word : List Label} (h : latest regs method word ≠ none) :
    registered regs method word = true := by
  obtain ⟨handler, hlatest⟩ := Option.ne_none_iff_exists'.mp h
  obtain ⟨r, hr, hsets⟩ := exists_sets_of_latest hlatest
  exact List.any_eq_true.mpr ⟨r, hr, by rw [hsets]; rfl⟩

theorem exists_node_of_registered {regs : List (Registration η)} {method : Fin kMethodCount}
    {word : List Label} (h : registered regs method word = true) :
    ∃ node, TrieNode.nodeAt word (build regs) = some node := by
  obtain ⟨r, hr, hsets⟩ := List.any_eq_true.mp h
  have hknown := known_word hr
  rw [Registration.word_of_sets (Option.isSome_iff_ne_none.mp hsets), ← inside_build] at hknown
  exact Option.isSome_iff_exists.mp hknown

theorem maskAgrees_iff (regs : List (Registration η)) :
    (∀ word node, TrieNode.nodeAt word (build regs) = some node → node.MaskAgrees) ↔
      ∀ m word, registered regs m word = true → latest regs m word ≠ none := by
  constructor
  · intro h m word hregistered
    obtain ⟨node, hnode⟩ := exists_node_of_registered hregistered
    have hbit := (getLsbD_methodMask hnode m.val).mpr ⟨m.isLt, hregistered⟩
    obtain ⟨_, hsome⟩ := (h word node hnode m.val).mp hbit
    rw [← handlers_eq_latest hnode]
    exact Option.isSome_iff_ne_none.mp hsome
  · intro h word node hnode i
    rw [getLsbD_methodMask hnode]
    refine exists_congr fun hi ↦ ?_
    rw [handlers_eq_latest hnode, Option.isSome_iff_ne_none]
    exact ⟨h _ _, registered_of_latest⟩

/-- What a request is answered is sound. An invoked handler is the one registered last for the
request's method under a shape that matches the path and is preferred, and what was captured are the
pieces of the path at that shape's parameters. A 405 comes from a node whose shape matches the path
and is preferred, which has registered methods, but not the request's; Allow lists exactly them. -/
def SoundAt (regs : List (Registration η)) (method : HttpMethod) (path : Bytes) : Prop :=
  (∀ handler captured, (routerOf regs).dispatch method path = .invoke handler captured →
    ∃ (hm : method.index < kMethodCount) (word : List Label),
      latest regs ⟨method.index, hm⟩ word = some handler ∧ MatchesPath word (segments path) ∧
        Preferred regs word (segments path) ∧ captured.map Prod.snd = pathPieces word path) ∧
  ∀ res, (routerOf regs).dispatch method path = .respond res →
    res.statusCode = kStatusMethodNotAllowed →
    ∃ (hm : method.index < kMethodCount) (word : List Label),
      known regs word = true ∧ MatchesPath word (segments path) ∧
        Preferred regs word (segments path) ∧ (∃ m, latest regs m word ≠ none) ∧
        latest regs ⟨method.index, hm⟩ word = none ∧ res = methodNotAllowedAt regs word

/-- **Dispatch is sound, and every mask shows the handlers of its node**, exactly when no function
that was registered last for its method and shape is empty. -/
theorem dispatch_sound_iff (regs : List (Registration η)) :
    ((∀ method path, SoundAt regs method path) ∧
      ∀ word node, TrieNode.nodeAt word (build regs) = some node → node.MaskAgrees) ↔
    ∀ m word, registered regs m word = true → latest regs m word ≠ none := by
  rw [maskAgrees_iff]
  refine ⟨And.right, fun hcallable ↦ ⟨fun method path ↦ ⟨fun _ _ ↦ invoke_sound, ?_⟩, hcallable⟩⟩
  intro res hres hstatus
  obtain ⟨hm, word, hknown, hmatch, hpref, ⟨m, hregistered⟩, hnone, rfl⟩ :=
    methodNotAllowed_sound hres hstatus
  refine ⟨hm, word, hknown, hmatch, hpref, ⟨m, hcallable m word hregistered⟩, hnone, ?_⟩
  -- the methods that are listed are those with a handler
  rw [methodNotAllowedAt, registeredMethods, listedMethods]
  refine congrArg methodNotAllowedFor (List.filter_congr fun m' _ ↦ ?_)
  rw [Bool.eq_iff_iff, Option.isSome_iff_ne_none]
  exact ⟨hcallable m' word, registered_of_latest⟩

/-- An empty function for `GET /a` is allowed and cannot be called. -/
theorem not_sound_of_empty :
    ¬∀ regs : List (Registration ℕ), (∀ method path, SoundAt regs method path) ∧
      ∀ word node, TrieNode.nodeAt word (build regs) = some node → node.MaskAgrees := by
  intro h
  obtain ⟨hsound, -⟩ := h [.route [] kGet [.static (ascii "a")] none]
  obtain ⟨-, word, -, -, -, ⟨m, hm⟩, -⟩ := (hsound .get (ascii "/a")).2 _ rfl rfl
  obtain ⟨handler, hlatest⟩ := Option.ne_none_iff_exists'.mp hm
  obtain ⟨r, hr, hsets⟩ := exists_sets_of_latest hlatest
  rw [List.mem_singleton.mp hr, Registration.sets, Option.ite_none_right_eq_some] at hsets
  exact absurd hsets.2 (by simp)

end Aevox
