import Aevox.Router.Typed
import Mathlib.Data.List.Forall2

/-!
# Groups

A group router registers below the node of its prefix. Making the group first makes no difference to
the trie: whatever is registered below a prefix creates the prefix anyway (`updateAt_prefix`). So a
registration through groups and the one with the concatenated pattern on the root router set the
same handler slot, under the same names (`foldl_registerUnder`, `parsePattern_append`).

What they set there can differ. The wrapper of a typed handler is given the names of the pattern of
the call, and a group's call does not see the parameters of the prefix.
-/

namespace Aevox

open PreferenceWalk Coroutine

/-! ## Patterns, concatenated -/

/-- A pattern without a wildcard. -/
def WildcardFree (segs : List Segment) : Prop := ∀ seg ∈ segs, seg.label ≠ .wildcard

instance (segs : List Segment) : Decidable (WildcardFree segs) :=
  inferInstanceAs (Decidable (∀ seg ∈ segs, seg.label ≠ .wildcard))

theorem parseTokens_cons {tok : Bytes} (htok : tok ≠ []) (b : Bool) (toks : List Bytes) :
    parseTokens b (tok :: toks) = if b then none else (parseToken tok).bind fun seg ↦
      (parseTokens (decide (seg.label = .wildcard)) toks).map (seg :: ·) := by
  rcases tok with _ | ⟨c, tok⟩
  · exact absurd rfl htok
  · rcases b with _ | _
    · rw [if_neg Bool.false_ne_true]
      change (parseToken (c :: tok)).bind _ = _
      refine congrArg _ (funext fun seg ↦ ?_)
      rcases seg with _ | _ | _ <;> exact Option.map_eq_bind.symm
    · rfl

theorem parseTokens_append {toks : List Bytes} : ∀ {b : Bool} {segs : List Segment},
    parseTokens b toks = some segs → WildcardFree segs → ∀ toks' : List Bytes,
      parseTokens b (toks ++ toks') = (parseTokens b toks').map (segs ++ ·) := by
  induction toks with
  | nil =>
    intro b segs h _ toks'
    obtain rfl := Option.some.inj h
    simp
  | cons tok toks ih =>
    intro b segs h hfree toks'
    by_cases htok : tok = []
    · subst htok
      exact ih h hfree toks'
    · rw [parseTokens_cons htok] at h
      rcases b with _ | _
      · rw [if_neg Bool.false_ne_true] at h
        obtain ⟨seg, hseg, h⟩ := Option.bind_eq_some_iff.mp h
        obtain ⟨rest, hrest, rfl⟩ := Option.map_eq_some_iff.mp h
        obtain ⟨hlabel, hfree⟩ := List.forall_mem_cons.mp hfree
        rw [decide_eq_false hlabel] at hrest
        rw [List.cons_append, parseTokens_cons htok, if_neg Bool.false_ne_true, hseg,
          Option.bind_some, decide_eq_false hlabel, ih hrest hfree, Option.map_map]
        rfl
      · simp at h

/-- **Concatenated patterns parse to concatenated segments**, if the first has no wildcard. -/
theorem parsePattern_append {p q : Bytes} {segs segs' : List Segment}
    (hp : parsePattern p = some segs) (hfree : WildcardFree segs)
    (hq : parsePattern q = some segs') : parsePattern (p ++ q) = some (segs ++ segs') := by
  rcases p with _ | ⟨b, p⟩
  · cases hp
  · rcases q with _ | ⟨c, q⟩
    · cases hq
    · rw [parsePattern] at hp hq
      by_cases hb : b = slash
      · by_cases hc : c = slash
        · rw [if_pos hb] at hp
          rw [if_pos hc] at hq
          rw [List.cons_append, parsePattern, if_pos hb, hc, List.splitOn_append_cons_self,
            parseTokens_append hp hfree, hq]
          rfl
        · rw [if_neg hc] at hq
          cases hq
      · rw [if_neg hb] at hp
        cases hp

/-! ## Registration under prefixes -/

/-- What a call of `get`, `post`, … on the router of nested groups amounts to: the groups, made one
inside the other, and the route, with the names of its own pattern. -/
def registerUnder (method : Fin kMethodCount) (handler : RouteHandler) :
    List Segment → List Bytes → Bytes → Option (List (Registration Handler))
  | scope, [], pattern => do
    let segs ← parsePattern pattern
    some [.route scope method segs (normaliseHandler handler (extractParamNames segs))]
  | scope, p :: prefixes, pattern => do
    let segs ← parsePattern p
    let regs ← registerUnder method handler (scope ++ segs) prefixes pattern
    some (.group scope segs :: regs)

namespace TrieNode

variable {η : Type}

theorem updateStatic_updateStatic {F G : TrieNode η → TrieNode η} (hG : KeepsText G)
    (literal : Bytes) (children : List (TrieNode η)) :
    updateStatic literal F (updateStatic literal G children)
      = updateStatic literal (F ∘ G) children := by
  induction children with
  | nil =>
    have hnew : (G (fresh (.static literal))).segment = literal := hG _
    simp [updateStatic, hnew]
  | cons c children ih =>
    by_cases hc : c.segment = literal
    · have hGc : (G c).segment = literal := (hG c).trans hc
      simp [updateStatic, hc, hGc]
    · simp [updateStatic, hc, ih]

theorem updateChild_updateChild {F G : TrieNode η → TrieNode η} (hG : KeepsText G)
    (seg : Segment) (node : TrieNode η) :
    (node.updateChild seg G).updateChild seg F = node.updateChild seg (F ∘ G) := by
  rcases seg with literal | _ | _
  · simp only [updateChild, updateStatic_updateStatic hG]
  · rfl
  · rfl

/-- **Making a prefix first changes nothing.** -/
theorem updateAt_prefix (f : TrieNode η → TrieNode η) (q : List Segment) {p : List Segment} :
    ∀ node : TrieNode η, updateAt f (p ++ q) (updateAt id p node) = updateAt f (p ++ q) node := by
  induction p with
  | nil => exact fun _ ↦ rfl
  | cons seg p ih =>
    intro node
    have hid : KeepsText (id : TrieNode η → TrieNode η) := fun _ ↦ rfl
    rw [List.cons_append, updateAt, updateAt, updateAt,
      updateChild_updateChild (keepsText_updateAt hid p)]
    exact congrArg (node.updateChild seg) (funext ih)

end TrieNode

theorem wildcardFree_append {segs segs' : List Segment} :
    WildcardFree (segs ++ segs') ↔ WildcardFree segs ∧ WildcardFree segs' :=
  List.forall_mem_append

theorem foldl_registerUnder (method : Fin kMethodCount) (handler : RouteHandler) {q : Bytes}
    {segs : List Segment} (hq : parsePattern q = some segs) {prefixes : List Bytes}
    {scopes : List (List Segment)}
    (hp : List.Forall₂ (fun p psegs ↦ parsePattern p = some psegs) prefixes scopes) :
    ∀ scope : List Segment, ∃ regs, registerUnder method handler scope prefixes q = some regs ∧
      ∀ root, regs.foldl Registration.apply root = root.insert (scope ++ scopes.flatten ++ segs)
        method (normaliseHandler handler (extractParamNames segs)) := by
  induction hp with
  | nil =>
    intro scope
    refine ⟨[.route scope method segs (normaliseHandler handler (extractParamNames segs))], ?_,
      fun root ↦ ?_⟩
    · rw [registerUnder, hq]
      rfl
    · rw [List.flatten_nil, List.append_nil]
      rfl
  | @cons p psegs prefixes scopes hp _ ih =>
    intro scope
    obtain ⟨regs, hregs, hfold⟩ := ih (scope ++ psegs)
    refine ⟨.group scope psegs :: regs, ?_, fun root ↦ ?_⟩
    · rw [registerUnder, hp]
      simp [hregs]
    · have hassoc : scope ++ (psegs :: scopes).flatten ++ segs
          = scope ++ psegs ++ (scopes.flatten ++ segs) := by simp
      rw [List.foldl_cons, hfold, hassoc, List.append_assoc]
      exact TrieNode.updateAt_prefix _ _ _

theorem parsePattern_flatten {q : Bytes} {segs : List Segment} (hq : parsePattern q = some segs)
    {prefixes : List Bytes} {scopes : List (List Segment)}
    (hp : List.Forall₂ (fun p psegs ↦ parsePattern p = some psegs) prefixes scopes) :
    WildcardFree scopes.flatten →
      parsePattern (prefixes.flatten ++ q) = some (scopes.flatten ++ segs) := by
  induction hp with
  | nil => exact fun _ ↦ hq
  | cons hp _ ih =>
    intro hfree
    rw [List.flatten_cons, wildcardFree_append] at hfree
    rw [List.flatten_cons, List.flatten_cons, List.append_assoc, List.append_assoc]
    exact parsePattern_append hp hfree.1 (ih hfree.2)

/-- Registering under prefixes and registering the concatenated pattern set the same slot; the
handlers there are wrapped with the names of the pattern alone and with all names. -/
theorem foldl_registerUnder_root (method : Fin kMethodCount) (handler : RouteHandler) {q : Bytes}
    {segs : List Segment} (hq : parsePattern q = some segs) {prefixes : List Bytes}
    {scopes : List (List Segment)}
    (hp : List.Forall₂ (fun p psegs ↦ parsePattern p = some psegs) prefixes scopes)
    (hfree : WildcardFree scopes.flatten) :
    ∃ regs regs', registerUnder method handler [] prefixes q = some regs ∧
      registerUnder method handler [] [] (prefixes.flatten ++ q) = some regs' ∧
      (∀ root, regs.foldl Registration.apply root = root.insert (scopes.flatten ++ segs) method
        (normaliseHandler handler (extractParamNames segs))) ∧
      ∀ root, regs'.foldl Registration.apply root = root.insert (scopes.flatten ++ segs) method
        (normaliseHandler handler (extractParamNames (scopes.flatten ++ segs))) := by
  obtain ⟨regs, hregs, hfold⟩ := foldl_registerUnder method handler hq hp []
  obtain ⟨regs', hregs', hfold'⟩ :=
    foldl_registerUnder method handler (parsePattern_flatten hq hp hfree) .nil []
  exact ⟨regs, regs', hregs, hregs', hfold, hfold'⟩

/-! ## Routers that differ in one handler -/

/-- The names on the way, in terms of how they are spelled first. -/
def spelledNames (spelled : List Label → Option Bytes) : List Label → List Label → List Bytes
  | _, [] => []
  | w, .static literal :: word => (spelled (w ++ [.static literal])).elim [] fun _ ↦
      spelledNames spelled (w ++ [.static literal]) word
  | w, .param :: word => (spelled (w ++ [.param])).elim [] fun name ↦
      name :: spelledNames spelled (w ++ [.param]) word
  | w, .wildcard :: word => (spelled (w ++ [.wildcard])).elim [] fun name ↦
      name :: spelledNames spelled (w ++ [.wildcard]) word

section

variable {η : Type}

theorem trail_eq_spelledNames {regs : List (Registration η)} {word : List Label} :
    ∀ {w : List Label} {node : TrieNode η}, TrieNode.nodeAt w (build regs) = some node →
      TrieNode.trail word node = spelledNames (firstSpelling regs) w word := by
  induction word with
  | nil => exact fun _ ↦ rfl
  | cons l word ih =>
    intro w node hw
    have hnext : ∀ {c}, node.child l = some c →
        TrieNode.trail word c = spelledNames (firstSpelling regs) (w ++ [l]) word :=
      fun hc ↦ ih ((TrieNode.nodeAt_concat_of hw l).trans hc)
    rcases l with literal | _ | _
    · rw [TrieNode.trail, spelledNames, firstSpelling_concat hw]
      rcases hc : node.child (.static literal) with _ | c
      · rfl
      · exact hnext hc
    · rw [TrieNode.trail, spelledNames, firstSpelling_concat hw]
      rcases hc : node.child .param with _ | c
      · rfl
      · exact congrArg (c.segment :: ·) (hnext hc)
    · rw [TrieNode.trail, spelledNames, firstSpelling_concat hw]
      rcases hc : node.child .wildcard with _ | c
      · rfl
      · exact congrArg (c.segment :: ·) (hnext hc)

theorem known_eq_any (regs : List (Registration η)) (word : List Label) :
    known regs word = (decide (word = []) ||
      (regs.map Registration.pattern).any fun q ↦ decide (word <+: shape q)) := by
  rw [known, List.any_map]
  simp only [Function.comp_def, Registration.word_eq]

theorem firstSpelling_eq_findSome? (regs : List (Registration η)) (word : List Label) :
    firstSpelling regs word = (regs.map Registration.pattern).findSome? fun q ↦
      if word <+: shape q then (q[word.length - 1]?).map Segment.text else none := by
  rw [firstSpelling, List.findSome?_map]
  simp only [Function.comp_def, ← Registration.word_eq]
  rfl

end

/-- Two routers with the same patterns answer a request alike if their slots agree at the shapes
that match its path. -/
theorem respond_congr {regs regs' : List (Registration Handler)}
    (hpatterns : regs.map Registration.pattern = regs'.map Registration.pattern) {req : Request}
    (hlatest : ∀ m word, MatchesPath word (segments req.path) →
      latest regs m word = latest regs' m word)
    (hregistered : ∀ m word, MatchesPath word (segments req.path) →
      registered regs m word = registered regs' m word) :
    (routerOf regs).respond req = (routerOf regs').respond req := by
  have hknown : known regs = known regs' := by
    funext word
    rw [known_eq_any, known_eq_any, hpatterns]
  have hspelled : firstSpelling regs = firstSpelling regs' := by
    funext word
    rw [firstSpelling_eq_findSome?, firstSpelling_eq_findSome?, hpatterns]
  have hdispatch : (routerOf regs).dispatch req.method req.path
      = (routerOf regs').dispatch req.method req.path := by
    rw [dispatch_eq, dispatch_eq, ← hknown]
    by_cases hm : req.method.index < kMethodCount
    · rw [dif_pos hm, dif_pos hm]
      rcases hwalk : pathScheme.walk (known regs) [] (segments req.path) with _ | word
      · rfl
      · have hmatch := (walk_known_sound hwalk).2.1
        dsimp only
        rw [trail_eq_spelledNames (TrieNode.nodeAt_nil _), hspelled,
          ← trail_eq_spelledNames (TrieNode.nodeAt_nil _), answerAt, answerAt, listedMethods,
          listedMethods]
        simp only [fun m ↦ hlatest m word hmatch, fun m ↦ hregistered m word hmatch]
    · rw [dif_neg hm, dif_neg hm]
  rw [Router.respond, Router.respond, hdispatch]

/-! ## Where typed handlers differ -/

theorem parseToken_cases {tok : Bytes} {seg : Segment} (h : parseToken tok = some seg) :
    seg = .static tok ∨ (∃ name type, seg = .param name type ∧ name ≠ []) ∨
      ∃ name, seg = .wildcard name ∧ name ≠ [] := by
  rw [parseToken] at h
  split at h
  · rw [parseBraced] at h
    split at h
    · dsimp only at h
      split at h
      · cases h
      · rename_i hname
        exact Or.inr (Or.inr ⟨_, (Option.some.inj h).symm, hname⟩)
    · dsimp only at h
      split at h
      · split at h
        · cases h
        · rename_i hname
          exact Or.inr (Or.inl ⟨_, _, (Option.some.inj h).symm, hname⟩)
      · obtain ⟨type, -, h⟩ := Option.bind_eq_some_iff.mp h
        split at h
        · cases h
        · rename_i hname
          exact Or.inr (Or.inl ⟨_, _, (Option.some.inj h).symm, hname⟩)
  · split at h
    · cases h
    · exact Or.inl (Option.some.inj h).symm

/-- The literals of a pattern are tokens of its text, nothing follows a wildcard, and no parameter
is nameless: some segments match the pattern, all of them `1` or a literal. -/
theorem of_parseTokens {toks : List Bytes} (hslash : ∀ tok ∈ toks, slash ∉ tok) :
    ∀ {b : Bool} {segs : List Segment}, parseTokens b toks = some segs →
      (b = true → segs = []) ∧
      (∃ ts, MatchesPath (shape segs) ts ∧
        ∀ t ∈ ts, (t ≠ [] ∧ slash ∉ t) ∧ (t = [49] ∨ .static t ∈ segs)) ∧
      ∀ name ∈ extractParamNames segs, name ≠ [] := by
  induction toks with
  | nil =>
    intro b segs h
    obtain rfl := Option.some.inj h
    exact ⟨fun _ ↦ rfl, ⟨[], trivial, fun t ht ↦ by cases ht⟩, fun name hname ↦ by cases hname⟩
  | cons tok toks ih =>
    intro b segs h
    obtain ⟨htokslash, htoks⟩ := List.forall_mem_cons.mp hslash
    by_cases htok : tok = []
    · subst htok
      exact ih htoks h
    · rw [parseTokens_cons htok] at h
      rcases b with _ | _
      · rw [if_neg Bool.false_ne_true] at h
        obtain ⟨seg, hseg, h⟩ := Option.bind_eq_some_iff.mp h
        obtain ⟨rest, hrest, rfl⟩ := Option.map_eq_some_iff.mp h
        obtain ⟨hwild, ⟨ts, hmatch, hts⟩, hnames⟩ := ih htoks hrest
        have htail : ∀ t ∈ ts, (t ≠ [] ∧ slash ∉ t) ∧ (t = [49] ∨ .static t ∈ seg :: rest) :=
          fun t ht ↦ (hts t ht).imp_right (Or.imp_right (List.mem_cons_of_mem seg))
        refine ⟨fun hb ↦ absurd hb Bool.false_ne_true, ?_⟩
        rcases parseToken_cases hseg with rfl | ⟨name, type, rfl, hname⟩ | ⟨name, rfl, hname⟩
        · refine ⟨⟨tok :: ts, ⟨rfl, hmatch⟩, List.forall_mem_cons.mpr ⟨?_, htail⟩⟩, hnames⟩
          exact ⟨⟨htok, htokslash⟩, Or.inr List.mem_cons_self⟩
        · refine ⟨⟨[49] :: ts, hmatch, List.forall_mem_cons.mpr ⟨?_, htail⟩⟩,
            List.forall_mem_cons.mpr ⟨hname, hnames⟩⟩
          exact ⟨by decide, Or.inl rfl⟩
        · obtain rfl := hwild (decide_eq_true rfl)
          exact ⟨⟨[], trivial, fun t ht ↦ by cases ht⟩, List.forall_mem_cons.mpr ⟨hname, hnames⟩⟩
      · simp at h

theorem of_parsePattern {q : Bytes} {segs : List Segment} (h : parsePattern q = some segs) :
    (∃ ts, MatchesPath (shape segs) ts ∧
      ∀ t ∈ ts, (t ≠ [] ∧ slash ∉ t) ∧ (t = [49] ∨ .static t ∈ segs)) ∧
    ∀ name ∈ extractParamNames segs, name ≠ [] := by
  rcases q with _ | ⟨b, q⟩
  · cases h
  · rw [parsePattern] at h
    split at h
    · refine (of_parseTokens (fun tok htok ↦ ?_) h).2
      by_cases hne : tok = []
      · rw [hne]
        exact List.not_mem_nil
      · have hmem : tok ∈ Delimited.tokens slash q :=
          List.mem_filter.mpr ⟨htok, decide_eq_true hne⟩
        exact (Delimited.of_mem_tokens hmem).2.1
    · cases h

theorem known_singleton {η : Type} {r : Registration η} {word : List Label} :
    known [r] word = true ↔ word = [] ∨ word <+: r.word := by
  simp [known]

/-- With one registration, nothing competes with it. -/
theorem preferred_singleton {η : Type} {r : Registration η} {ls : List Label} {ts : List Bytes}
    (h : MatchesPath ls ts) : ∀ {w : List Label}, w ++ ls = r.word →
      pathScheme.Unrivalled (known [r]) w ls ts := by
  have hother : ∀ {w ls : List Label} {k k' : Label} {ks : List Label}, w ++ k :: ls = r.word →
      k' ∈ ks.takeWhile (· ≠ k) → known [r] (w ++ [k']) = false := by
    intro w ls k k' ks hword hk
    have hne : k' ≠ k := by simpa using List.mem_takeWhile_imp hk
    rw [Bool.eq_false_iff, ne_eq, known_singleton, ← hword]
    simp [List.prefix_append_right_inj, List.cons_prefix_cons, hne]
  have hnext : ∀ {w ls : List Label} {l : Label}, w ++ l :: ls = r.word → w ++ [l] ++ ls = r.word :=
    fun hword ↦ (List.append_assoc _ _ _).trans hword
  induction h using matchesPath_induction with
  | nil =>
    intro w hword
    rw [Scheme.unrivalled_nil_nil]
    intro k _
    rw [Bool.eq_false_iff, ne_eq, known_singleton, ← hword, List.append_nil]
    rintro (hnil | hpre)
    · simp at hnil
    · exact absurd hpre.length_le (by simp)
  | static s ls ts _ ih =>
    intro w hword
    rw [Scheme.unrivalled_cons_cons]
    exact ⟨fun k hk ↦ hother hword hk, fun _ ↦ ih (hnext hword)⟩
  | param t ls ts _ ih =>
    intro w hword
    rw [Scheme.unrivalled_cons_cons]
    exact ⟨fun k hk ↦ hother hword hk, fun _ ↦ ih (hnext hword)⟩
  | wildcard ts =>
    intro w hword
    cases ts with
    | nil =>
      rw [Scheme.unrivalled_cons_nil]
      exact fun k hk ↦ hother hword hk
    | cons t ts =>
      rw [Scheme.unrivalled_cons_cons]
      exact ⟨fun k hk ↦ hother hword hk, fun hstop ↦ (nomatch hstop)⟩

theorem ownSpelling_singleton {η : Type} {r : Registration η} {q : List Segment} :
    ∀ {v : List Segment}, v ++ q = r.pattern → OwnSpelling [r] (shape v) q := by
  induction q with
  | nil => exact fun _ ↦ trivial
  | cons seg q ih =>
    intro v hv
    have hnext : v ++ [seg] ++ q = r.pattern := by simpa using hv
    have hword : shape (v ++ [seg]) = shape v ++ [seg.label] := List.map_append
    have hrest := ih hnext
    have hfirst : firstSpelling [r] (shape v ++ [seg.label]) = some seg.text := by
      have hpre : shape v ++ [seg.label] <+: r.word := by
        rw [r.word_eq, ← hnext, ← hword]
        exact ⟨shape q, List.map_append.symm⟩
      have hlen : (shape v ++ [seg.label]).length - 1 = v.length := by simp [shape]
      have hget : r.pattern[v.length]? = some seg := by
        rw [← hv]
        simp
      rw [firstSpelling, List.findSome?_cons, Registration.spelling, if_pos hpre, hlen, hget]
      rfl
    rw [hword] at hrest
    rcases seg with literal | ⟨name, type⟩ | name
    · exact hrest
    · exact ⟨hfirst, hrest⟩
    · exact ⟨hfirst, hrest⟩

/-- Some request reaches the only route there is, with all names of its pattern captured. -/
theorem exists_reaching {text : Bytes} {pattern : List Segment}
    (hparse : parsePattern text = some pattern)
    (hquery : ∀ literal, Segment.static literal ∈ pattern → 63 ∉ literal) :
    ∃ (req : Request) (captured : List (Bytes × Bytes)),
      captured.map Prod.fst = extractParamNames pattern ∧
        ∀ handler : Handler, (routerOf [.route [] kGet pattern (some handler)]).respond req
          = handler (req.withParams captured) := by
  obtain ⟨⟨ts, hmatch, hts⟩, -⟩ := of_parsePattern hparse
  have hpath : (63 : UInt8) ∉ joinSegments ts := by
    intro hmem
    obtain ⟨t, ht, hmem⟩ := List.mem_flatMap.mp hmem
    rcases List.mem_append.mp hmem with hmem | hmem
    · rcases (hts t ht).2 with rfl | hliteral
      · exact absurd hmem (by decide)
      · exact hquery t hliteral hmem
    · exact absurd (List.mem_singleton.mp hmem) (by decide)
  have hget : (Request.withPath { parsed := { method := ascii "GET" } } (joinSegments ts)).method
      = .get := rfl
  have hreq := Request.path_withPath { parsed := { method := ascii "GET" } } hpath
  have hsegs := segments_joinSegments fun t ht ↦ (hts t ht).1
  refine ⟨Request.withPath { parsed := { method := ascii "GET" } } (joinSegments ts),
    (extractParamNames pattern).zip (pathPieces (shape pattern) (joinSegments ts)), ?_,
    fun handler ↦ ?_⟩
  · exact List.map_fst_zip (le_of_eq (length_extractParamNames hmatch _))
  · obtain ⟨r, hr⟩ : ∃ r : Registration Handler, r = .route [] kGet pattern (some handler) :=
      ⟨_, rfl⟩
    have hpattern : r.pattern = pattern := by rw [hr]; rfl
    have hword : r.word = shape pattern := by rw [r.word_eq, hpattern]
    have hsets : r.sets kGet r.word = some (some handler) := by
      rw [hr]
      exact if_pos ⟨rfl, rfl⟩
    rw [← hword] at hmatch
    have hknown : known [r] r.word = true := known_singleton.mpr (Or.inr (List.prefix_refl _))
    have hroute : invokedRoute [r] kGet (joinSegments ts) = some r := by
      refine invokedRoute_eq_some_iff.mpr ⟨?_, ?_⟩
      · rw [hsegs]
        exact (walk_known_eq_some_iff hknown).mpr
          ⟨hmatch, preferred_singleton hmatch (List.nil_append _)⟩
      · simp [latestRoute, hsets]
    obtain ⟨handler', hhandler', hinvoke⟩ :=
      @dispatch_invokedRoute _ _ .get (by decide) _ _ hroute
    obtain rfl : handler = handler' :=
      Option.some.inj (Option.some.inj (hsets.symm.trans hhandler'))
    have hnode : (TrieNode.nodeAt (shape r.pattern) (build [r])).isSome = true := by
      rwa [← inside_build, r.word_eq] at hknown
    have hown : OwnSpelling [r] [] r.pattern := @ownSpelling_singleton _ r r.pattern [] rfl
    have htrail := (trail_eq_iff (TrieNode.nodeAt_nil _) hnode).mpr hown
    rw [hpattern] at htrail
    rw [← hr, Router.respond, hget, hreq, hinvoke, hword, htrail]

/-- A handler that takes strings and answers 200. -/
def acceptStrings : ℕ → RouteHandler
  | 0 => .request (some fun _ ↦ ret (.ok []))
  | 1 => .one .string fun _ _ ↦ ret (.ok [])
  | _ => .two .string .string fun _ _ _ ↦ ret (.ok [])

theorem arity_acceptStrings {n : ℕ} (h : n ≤ 2) : (acceptStrings n).arity = n := by
  rcases n with _ | _ | _ | n
  · rfl
  · rfl
  · rfl
  · omega

theorem normaliseHandler_acceptStrings {names : List Bytes} (hlen : names.length ≤ 2) :
    ∃ h, normaliseHandler (acceptStrings names.length) names = some h ∧
      ∀ req : Request, (∀ name ∈ names, req.findParam name ≠ none) → h req = ret (.ok []) := by
  have hparam : ∀ {req : Request}, (∀ name ∈ names, req.findParam name ≠ none) →
      ∀ name ∈ names, ∃ v, req.param name .string = .ok v := by
    intro req hfound name hname
    obtain ⟨v, hv⟩ := Option.ne_none_iff_exists'.mp (hfound name hname)
    exact ⟨v, by rw [Request.param, hv]⟩
  rcases names with _ | ⟨a, _ | ⟨b, _ | ⟨c, names⟩⟩⟩
  · exact ⟨_, rfl, fun _ _ ↦ rfl⟩
  · refine ⟨_, rfl, fun req hfound ↦ ?_⟩
    obtain ⟨v, hv⟩ := hparam hfound a List.mem_cons_self
    simp [hv]
  · refine ⟨_, rfl, fun req hfound ↦ ?_⟩
    obtain ⟨v, hv⟩ := hparam hfound a List.mem_cons_self
    obtain ⟨v', hv'⟩ := hparam hfound b (List.mem_cons_of_mem a List.mem_cons_self)
    simp [hv, hv']
  · simp at hlen

theorem extractParamNames_append (segs segs' : List Segment) :
    extractParamNames (segs ++ segs') = extractParamNames segs ++ extractParamNames segs' := by
  induction segs with
  | nil => rfl
  | cons seg segs ih => rcases seg with _ | _ | _ <;> simp [extractParamNames, ih]

/-- A wrapper that was given fewer names than its handler has parameters is found out by a request
that reaches it. -/
theorem exists_respond_ne {text : Bytes} {pattern : List Segment} {names : List Bytes}
    (hparse : parsePattern text = some pattern)
    (hquery : ∀ literal, Segment.static literal ∈ pattern → 63 ∉ literal)
    (harity : (extractParamNames pattern).length ≤ 2)
    (hfew : names.length < (extractParamNames pattern).length) :
    ∃ req, (routerOf [.route [] kGet pattern (normaliseHandler
          (acceptStrings (extractParamNames pattern).length) names)]).respond req
      ≠ (routerOf [.route [] kGet pattern (normaliseHandler
          (acceptStrings (extractParamNames pattern).length) (extractParamNames pattern))]).respond
            req := by
  obtain ⟨req, captured, hcaptured, hrespond⟩ := exists_reaching hparse hquery
  obtain ⟨short, hshort, hmissing⟩ :=
    normaliseHandler_of_missing ((arity_acceptStrings harity).symm ▸ hfew)
  obtain ⟨full, hfull, haccept⟩ := normaliseHandler_acceptStrings harity
  refine ⟨req, fun hsame ↦ ?_⟩
  rw [hshort, hfull, hrespond, hrespond] at hsame
  have hnil : (req.withParams captured).findParam [] = none :=
    findParam_nil_withParams fun kv hkv ↦
      (of_parsePattern hparse).2 _ (hcaptured ▸ List.mem_map_of_mem hkv)
  have hfound : ∀ name ∈ extractParamNames pattern,
      (req.withParams captured).findParam name ≠ none := by
    intro name hname
    obtain ⟨kv, hkv, rfl⟩ := List.mem_map.mp (hcaptured ▸ hname)
    rw [Request.findParam_withParams, ne_eq, Option.map_eq_none_iff, List.find?_eq_none]
    exact fun hnone ↦ hnone kv hkv (decide_eq_true rfl)
  obtain ⟨message, hmessage⟩ := hmissing _ hnil
  rw [hmessage, haccept _ hfound] at hsame
  have hstatus := congrArg Response.statusCode (Coroutine.ret.inj hsame)
  exact absurd hstatus (by decide : kStatusBadRequest ≠ kStatusOk)

theorem routerOf_replace {regs : List (Registration Handler)} {r : Registration Handler}
    (h : ∀ root, regs.foldl Registration.apply root = r.apply root)
    (before after : List (Registration Handler)) :
    routerOf (before ++ regs ++ after) = routerOf (before ++ [r] ++ after) := by
  simp only [routerOf, build, List.foldl_append, h, List.foldl_cons, List.foldl_nil]

theorem latest_skip {r : Registration Handler} {method : Fin kMethodCount} {word : List Label}
    (h : r.sets method word = none) (before after : List (Registration Handler)) :
    latest (before ++ [r] ++ after) method word = latest (before ++ after) method word := by
  simp [latest, List.findSome?_append, h]

theorem registered_skip {r : Registration Handler} {method : Fin kMethodCount} {word : List Label}
    (h : r.sets method word = none) (before after : List (Registration Handler)) :
    registered (before ++ [r] ++ after) method word = registered (before ++ after) method word := by
  simp [registered, h]

theorem mem_of_matchesPath {literal : Bytes} {ls : List Label} {ts : List Bytes}
    (h : MatchesPath ls ts) (hmem : Label.static literal ∈ ls) : literal ∈ ts := by
  induction h using matchesPath_induction with
  | nil => exact absurd hmem List.not_mem_nil
  | static s ls ts _ ih =>
    rcases List.mem_cons.mp hmem with hs | hmem
    · obtain rfl := Label.static.inj hs
      exact List.mem_cons_self
    · exact List.mem_cons_of_mem _ (ih hmem)
  | param t ls ts _ ih =>
    exact List.mem_cons_of_mem _ (ih (List.mem_of_ne_of_mem Label.noConfusion hmem))
  | wildcard ts => exact absurd (List.mem_singleton.mp hmem) Label.noConfusion

/-- No request matches a literal with a question mark. -/
theorem not_matchesPath_of_query {req : Request} {segs : List Segment} {literal : Bytes}
    (hliteral : Segment.static literal ∈ segs) (hquery : 63 ∈ literal) :
    ¬MatchesPath (shape segs) (segments req.path) := by
  intro h
  have hseg := mem_of_matchesPath h (List.mem_map.mpr ⟨.static literal, hliteral, rfl⟩)
  exact (of_mem_segments hseg).2 hquery

theorem respond_congr_of_query {segs : List Segment} {literal : Bytes}
    (hliteral : Segment.static literal ∈ segs) (hquery : 63 ∈ literal) (method : Fin kMethodCount)
    (h h' : Option Handler) (before after : List (Registration Handler)) (req : Request) :
    (routerOf (before ++ [.route [] method segs h] ++ after)).respond req
      = (routerOf (before ++ [.route [] method segs h'] ++ after)).respond req := by
  have hnone : ∀ (h : Option Handler) m word, MatchesPath word (segments req.path) →
      (Registration.route [] method segs h).sets m word = none := by
    intro h m word hmatch
    refine if_neg fun hslot ↦ ?_
    rw [hslot.1, List.nil_append] at hmatch
    exact not_matchesPath_of_query hliteral hquery hmatch
  refine respond_congr ?_ (fun m word hmatch ↦ ?_) fun m word hmatch ↦ ?_
  · simp [Registration.pattern]
  · rw [latest_skip (hnone h m word hmatch), latest_skip (hnone h' m word hmatch)]
  · rw [registered_skip (hnone h m word hmatch), registered_skip (hnone h' m word hmatch)]

/-- **Groups are prefixing, for handlers that do not take a parameter of the prefix.** A
registration through groups and the one with the concatenated pattern on the root router answer
every request alike, for every handler with as many parameters as the concatenated pattern and next
to whatever other registrations, exactly when the prefixes have no parameters, or no request can
match the pattern because a literal of it contains a question mark. -/
theorem group_prefixes_iff {q : Bytes} {segs : List Segment} (hq : parsePattern q = some segs)
    {prefixes : List Bytes} {scopes : List (List Segment)}
    (hp : List.Forall₂ (fun p psegs ↦ parsePattern p = some psegs) prefixes scopes)
    (hfree : WildcardFree scopes.flatten)
    (harity : (extractParamNames (scopes.flatten ++ segs)).length ≤ 2) :
    (∀ handler : RouteHandler,
      handler.arity = (extractParamNames (scopes.flatten ++ segs)).length →
      ∀ (method : Fin kMethodCount) (before after : List (Registration Handler)),
        ∃ regs regs', registerUnder method handler [] prefixes q = some regs ∧
          registerUnder method handler [] [] (prefixes.flatten ++ q) = some regs' ∧
          ∀ req, (routerOf (before ++ regs ++ after)).respond req
            = (routerOf (before ++ regs' ++ after)).respond req)
      ↔ extractParamNames scopes.flatten = [] ∨
        ∃ literal, Segment.static literal ∈ scopes.flatten ++ segs ∧ 63 ∈ literal := by
  constructor
  · intro h
    by_contra hcond
    rw [not_or] at hcond
    obtain ⟨hnames, hquery⟩ := hcond
    have hfew : (extractParamNames segs).length
        < (extractParamNames (scopes.flatten ++ segs)).length := by
      rw [extractParamNames_append, List.length_append]
      exact Nat.lt_add_of_pos_left (List.length_pos_iff.mpr hnames)
    -- the group's wrapper misses a name, the other one finds them all
    obtain ⟨req, hne⟩ := exists_respond_ne (parsePattern_flatten hq hp hfree)
      (fun literal hliteral hmem ↦ hquery ⟨literal, hliteral, hmem⟩) harity hfew
    obtain ⟨regs, regs', hregs, hregs', heq⟩ := h _ (arity_acceptStrings harity) kGet [] []
    obtain ⟨regs₁, regs₂, hregs₁, hregs₂, hfold, hfold'⟩ := foldl_registerUnder_root kGet
      (acceptStrings (extractParamNames (scopes.flatten ++ segs)).length) hq hp hfree
    obtain rfl := Option.some.inj (hregs.symm.trans hregs₁)
    obtain rfl := Option.some.inj (hregs'.symm.trans hregs₂)
    have hsame := heq req
    rw [routerOf_replace (r := .route [] kGet (scopes.flatten ++ segs) _) hfold,
      routerOf_replace (r := .route [] kGet (scopes.flatten ++ segs) _) hfold', List.nil_append,
      List.append_nil, List.nil_append, List.append_nil] at hsame
    exact hne hsame
  · intro hcond handler _ method before after
    obtain ⟨regs, regs', hregs, hregs', hfold, hfold'⟩ :=
      foldl_registerUnder_root method handler hq hp hfree
    refine ⟨regs, regs', hregs, hregs', fun req ↦ ?_⟩
    rcases hcond with hnames | ⟨literal, hliteral, hquery⟩
    · -- both wrappers look up the same names
      rw [extractParamNames_append, hnames, List.nil_append] at hfold'
      have hbuild : build (before ++ regs ++ after) = build (before ++ regs' ++ after) := by
        simp only [build, List.foldl_append, hfold, hfold']
      rw [routerOf, routerOf, hbuild]
    · rw [routerOf_replace (r := .route [] method (scopes.flatten ++ segs) _) hfold,
        routerOf_replace (r := .route [] method (scopes.flatten ++ segs) _) hfold']
      exact respond_congr_of_query hliteral hquery method _ _ before after req

/-- `/users/{id:int}` in the group of `/api`. -/
theorem group_prefixes_api :
    ∃ regs regs',
      registerUnder kGet (.one .int fun _ _ ↦ ret (.ok [])) [] [ascii "/api"]
          (ascii "/users/{id:int}") = some regs ∧
        registerUnder kGet (.one .int fun _ _ ↦ ret (.ok [])) [] []
          (ascii "/api/users/{id:int}") = some regs' ∧
        ∀ req, (routerOf ([] ++ regs ++ [])).respond req
          = (routerOf ([] ++ regs' ++ [])).respond req := by
  have hq : parsePattern (ascii "/users/{id:int}")
      = some [.static (ascii "users"), .param (ascii "id") .int] := by decide
  have hp : List.Forall₂ (fun p psegs ↦ parsePattern p = some psegs) [ascii "/api"]
      [[.static (ascii "api")]] := .cons (by decide) .nil
  exact (group_prefixes_iff hq hp (by decide) (by decide)).mpr (Or.inl rfl)
    (.one .int fun _ _ ↦ ret (.ok [])) rfl kGet [] []

/-- `group("/users/{id}")` and in it `get("/posts", …)` with an `int` parameter. -/
theorem not_group_prefixes :
    ¬∀ (q : Bytes) (segs : List Segment), parsePattern q = some segs →
      ∀ (prefixes : List Bytes) (scopes : List (List Segment)),
        List.Forall₂ (fun p psegs ↦ parsePattern p = some psegs) prefixes scopes →
        WildcardFree scopes.flatten →
        ∀ handler : RouteHandler,
          handler.arity = (extractParamNames (scopes.flatten ++ segs)).length →
          ∀ (method : Fin kMethodCount) (before after : List (Registration Handler)),
            ∃ regs regs', registerUnder method handler [] prefixes q = some regs ∧
              registerUnder method handler [] [] (prefixes.flatten ++ q) = some regs' ∧
              ∀ req, (routerOf (before ++ regs ++ after)).respond req
                = (routerOf (before ++ regs' ++ after)).respond req := by
  intro h
  obtain ⟨regs, regs', hregs, hregs', hsame⟩ := h (ascii "/posts") [.static (ascii "posts")]
    (by decide) [ascii "/users/{id}"] [[.static (ascii "users"), .param (ascii "id") .none]]
    (.cons (by decide) .nil) (by decide) (.one .int fun _ _ ↦ ret (.ok [])) rfl kGet [] []
  obtain rfl := Option.some.inj hregs
  obtain rfl := Option.some.inj hregs'
  have hreq := hsame { parsed := { method := ascii "GET", target := ascii "/users/7/posts" } }
  have hstatus := congrArg Response.statusCode (Coroutine.ret.inj hreq)
  exact absurd hstatus (by decide)

end Aevox
