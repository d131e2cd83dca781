import Aevox.Router.Groups

/-!
# The grammar of patterns

A pattern is written with slashes between its tokens: literal text without braces, `{name}` or
`{name:type}` for a parameter, `{name...}` for a wildcard at the end. `Segment.render` writes a
segment, and a pattern is in the grammar if its tokens are written segments (`InGrammar`).

The parser is exact for this grammar if any name is allowed (`parsePattern_eq_some_iff`). It looks
for braces only outside of a pair of braces, so a name can contain them: `{a}-{b}` is a parameter
with the name `a}-{b`.
-/

namespace Aevox

open Delimited

/-! ## Writing a pattern -/

/-- 123 and 125 are the braces. -/
def BraceFree (text : Bytes) : Prop := 123 ∉ text ∧ 125 ∉ text

/-- Text in braces. -/
def braced (inner : Bytes) : Bytes := 123 :: (inner ++ [125])

/-- What is written for a type behind the name. -/
def ParamType.suffix : ParamType → Bytes
  | .none => []
  | .int => ascii ":int"
  | .uint => ascii ":uint"
  | .float => ascii ":float"
  | .double => ascii ":double"
  | .string => ascii ":string"

/-- The token of a segment. -/
def Segment.render : Segment → Bytes
  | .static literal => literal
  | .param name paramType => braced (name ++ paramType.suffix)
  | .wildcard name => braced (name ++ ascii "...")

/-- The token can be read in one way. In the name of a parameter, a colon (58) would begin the type
and an ellipsis at the end would make it a wildcard. -/
def Segment.Unambiguous : Segment → Prop
  | .static literal => BraceFree literal
  | .param name paramType => 58 ∉ name ∧ (paramType = .none → ¬ascii "..." <:+ name)
  | .wildcard _ => True

/-- The names of parameters and wildcards are allowed. -/
def Segment.NamedBy (allowed : Bytes → Prop) : Segment → Prop
  | .static _ => True
  | .param name _ => allowed name
  | .wildcard name => allowed name

/-- A segment that can be written. -/
structure Segment.WellFormed (allowed : Bytes → Prop) (seg : Segment) : Prop where
  nonempty : seg.text ≠ []
  slashFree : slash ∉ seg.text
  unambiguous : seg.Unambiguous
  named : seg.NamedBy allowed

/-- A list of segments that can be written: only the last one can be a wildcard. -/
structure WellFormed (allowed : Bytes → Prop) (segs : List Segment) : Prop where
  segment : ∀ seg ∈ segs, seg.WellFormed allowed
  wildcardLast : WildcardFree segs.dropLast

/-- The pattern of a list of segments. -/
def renderPattern (segs : List Segment) : Bytes :=
  slash :: [slash].intercalate (segs.map Segment.render)

/-- The pattern begins with a slash and its tokens are written segments. -/
def InGrammar (allowed : Bytes → Prop) (p : Bytes) : Prop :=
  p.head? = some slash ∧
    ∃ segs, WellFormed allowed segs ∧ tokens slash p = segs.map Segment.render

/-! ## Reading a token -/

theorem parseParamType_eq_some_iff {text : Bytes} {paramType : ParamType} :
    parseParamType text = some paramType ↔ paramType ≠ .none ∧ 58 :: text = paramType.suffix := by
  constructor
  · intro h
    unfold parseParamType at h
    split_ifs at h with hint huint hfloat hdouble hstring <;>
      obtain rfl := Option.some.inj h
    · exact ⟨by decide, by rw [hint]; rfl⟩
    · exact ⟨by decide, by rw [huint]; rfl⟩
    · exact ⟨by decide, by rw [hfloat]; rfl⟩
    · exact ⟨by decide, by rw [hdouble]; rfl⟩
    · exact ⟨by decide, by rw [hstring]; rfl⟩
  · rintro ⟨hne, h⟩
    have htext : text = paramType.suffix.tail := congrArg List.tail h
    rw [htext]
    cases paramType with
    | none => exact absurd rfl hne
    | int | uint | float | double | string => decide

/-- No type ends like a wildcard. -/
theorem not_ellipsis_suffix {paramType : ParamType} (h : paramType ≠ .none) (name : Bytes) :
    ¬ascii "..." <:+ name ++ paramType.suffix := by
  rintro ⟨text, htext⟩
  have hlast := congrArg List.getLast? htext
  rw [List.getLast?_append, List.getLast?_append] at hlast
  cases paramType with
  | none => exact absurd rfl h
  | int | uint | float | double | string => exact absurd (Option.some.inj hlast) (by decide)

theorem eq_takeWhile_append {inner name type : Bytes} (hname : 58 ∉ name)
    (htype : type.head? ∈ [none, some 58]) (h : inner = name ++ type) :
    inner.takeWhile (· ≠ 58) = name ∧ inner.dropWhile (· ≠ 58) = type := by
  have hall : ∀ b ∈ name, decide (b ≠ 58) = true :=
    fun b hb ↦ decide_eq_true fun heq ↦ hname (heq ▸ hb)
  rw [h, List.takeWhile_append_of_pos hall, List.dropWhile_append_of_pos hall]
  rcases type with _ | ⟨b, type⟩
  · exact ⟨List.append_nil _, rfl⟩
  · have hb : b = 58 := by simpa using htype
    rw [hb, List.takeWhile_cons_of_neg (by decide), List.dropWhile_cons_of_neg (by decide)]
    exact ⟨List.append_nil _, rfl⟩

theorem parseBraced_param {name : Bytes} {paramType : ParamType} (hname : name ≠ [])
    (hcolon : 58 ∉ name) (hellipsis : paramType = .none → ¬ascii "..." <:+ name) :
    parseBraced (name ++ paramType.suffix) = some (.param name paramType) := by
  have hparam : ¬ascii "..." <:+ name ++ paramType.suffix := by
    by_cases htype : paramType = .none
    · rw [htype, ParamType.suffix, List.append_nil]
      exact hellipsis htype
    · exact not_ellipsis_suffix htype name
  have hhead : paramType.suffix.head? ∈ [none, some 58] := by
    cases paramType <;> decide
  obtain ⟨htake, hdrop⟩ := eq_takeWhile_append hcolon hhead rfl
  rw [parseBraced, if_neg hparam, htake, hdrop]
  by_cases htype : paramType = .none
  · rw [htype]
    exact if_neg hname
  · obtain ⟨type, hsuffix⟩ : ∃ type, 58 :: type = paramType.suffix := by
      cases paramType with
      | none => exact absurd rfl htype
      | int | uint | float | double | string => exact ⟨_, rfl⟩
    rw [← hsuffix]
    dsimp only
    rw [parseParamType_eq_some_iff.mpr ⟨htype, hsuffix⟩]
    exact if_neg hname

theorem take_ellipsis (name : Bytes) :
    (name ++ ascii "...").take ((name ++ ascii "...").length - 3) = name := by
  rw [List.length_append, show (ascii "...").length = 3 from rfl, Nat.add_sub_cancel]
  exact List.take_left

theorem parseBraced_wildcard {name : Bytes} (hname : name ≠ []) :
    parseBraced (name ++ ascii "...") = some (.wildcard name) := by
  rw [parseBraced, if_pos (List.suffix_append _ _)]
  dsimp only
  rw [take_ellipsis, if_neg hname]

/-- **Between braces**: a name with its type, or a name with an ellipsis. -/
theorem parseBraced_eq_some {inner : Bytes} {seg : Segment} (h : parseBraced inner = some seg) :
    seg.render = braced inner ∧ seg.text ≠ [] ∧ seg.Unambiguous := by
  rw [parseBraced] at h
  split_ifs at h with hellipsis
  · obtain ⟨name, rfl⟩ := hellipsis
    dsimp only at h
    rw [take_ellipsis] at h
    split_ifs at h with hname
    obtain rfl := Option.some.inj h
    exact ⟨rfl, hname, trivial⟩
  · have hcolon : 58 ∉ inner.takeWhile (· ≠ 58) := fun hmem ↦ by
      simpa using List.mem_takeWhile_imp hmem
    have hsplit := List.takeWhile_append_dropWhile (p := (· ≠ 58)) (l := inner)
    have hhead := List.head?_dropWhile_not (· ≠ 58) inner
    dsimp only at h
    split at h
    next hrest =>
      rw [hrest, List.append_nil] at hsplit
      rw [hsplit] at h hcolon
      split_ifs at h with hname
      obtain rfl := Option.some.inj h
      refine ⟨?_, hname, hcolon, fun _ ↦ hellipsis⟩
      exact congrArg braced (List.append_nil _)
    next b type hrest =>
      rw [hrest] at hsplit hhead
      obtain rfl : b = 58 := by simpa using hhead
      obtain ⟨paramType, htype, h⟩ := Option.bind_eq_some_iff.mp h
      obtain ⟨hne, hsuffix⟩ := parseParamType_eq_some_iff.mp htype
      split_ifs at h with hname
      obtain rfl := Option.some.inj h
      refine ⟨?_, hname, hcolon, fun hnone ↦ absurd hnone hne⟩
      rw [Segment.render, ← hsuffix, hsplit]

/-- The parser recognises text in braces by its first and its last byte. -/
theorem isBraced_iff {tok : Bytes} :
    2 ≤ tok.length ∧ tok.head? = some 123 ∧ tok.getLast? = some 125 ↔
      ∃ inner, tok = braced inner := by
  constructor
  · rintro ⟨hlen, hhead, hlast⟩
    rcases tok with _ | ⟨b, tok⟩
    · cases hhead
    · obtain rfl := Option.some.inj hhead
      have hne : tok ≠ [] := by
        rintro rfl
        exact absurd hlen (by decide)
      rw [List.getLast?_cons_of_ne_nil hne, List.getLast?_eq_some_getLast hne] at hlast
      refine ⟨tok.dropLast, ?_⟩
      rw [braced, ← Option.some.inj hlast, List.dropLast_append_getLast]
  · rintro ⟨inner, rfl⟩
    refine ⟨?_, rfl, ?_⟩
    · rw [braced, List.length_cons, List.length_append, List.length_singleton]
      omega
    · rw [braced, ← List.cons_append, List.getLast?_concat]

@[simp] theorem parseToken_braced (inner : Bytes) :
    parseToken (braced inner) = parseBraced inner := by
  rw [parseToken, if_pos (isBraced_iff.mpr ⟨inner, rfl⟩), braced, List.drop_one, List.tail_cons,
    List.dropLast_concat]

theorem not_braceFree_braced (inner : Bytes) : ¬BraceFree (braced inner) :=
  fun h ↦ h.1 List.mem_cons_self

/-- **A token** is read as the segment it is written for. -/
theorem parseToken_eq_some_iff {tok : Bytes} {seg : Segment} (htok : tok ≠ [] ∧ slash ∉ tok) :
    parseToken tok = some seg ↔ tok = seg.render ∧ seg.WellFormed fun _ ↦ True := by
  have hnamed : ∀ seg : Segment, seg.NamedBy fun _ ↦ True := by
    rintro (_ | _ | _) <;> trivial
  constructor
  · intro h
    by_cases hbraced : ∃ inner, tok = braced inner
    · obtain ⟨inner, rfl⟩ := hbraced
      rw [parseToken_braced] at h
      obtain ⟨hrender, hne, hunambiguous⟩ := parseBraced_eq_some h
      refine ⟨hrender.symm, hne, fun hmem ↦ htok.2 ?_, hunambiguous, hnamed seg⟩
      rw [← hrender]
      rcases seg with literal | ⟨name, paramType⟩ | name
      · exact hmem
      · exact List.mem_cons_of_mem _ (List.mem_append_left _ (List.mem_append_left _ hmem))
      · exact List.mem_cons_of_mem _ (List.mem_append_left _ (List.mem_append_left _ hmem))
    · rw [parseToken, if_neg (isBraced_iff.not.mpr hbraced)] at h
      split_ifs at h with hbrace
      obtain rfl := Option.some.inj h
      exact ⟨rfl, htok.1, htok.2, not_or.mp hbrace, trivial⟩
  · rintro ⟨rfl, hwell⟩
    have hunambiguous := hwell.unambiguous
    rcases seg with literal | ⟨name, paramType⟩ | name
    · have hbraced : ¬∃ inner, literal = braced inner := by
        rintro ⟨inner, rfl⟩
        exact not_braceFree_braced inner hunambiguous
      rw [Segment.render, parseToken, if_neg (isBraced_iff.not.mpr hbraced),
        if_neg (not_or.mpr hunambiguous)]
    · exact (parseToken_braced _).trans
        (parseBraced_param hwell.nonempty hunambiguous.1 hunambiguous.2)
    · exact (parseToken_braced _).trans (parseBraced_wildcard hwell.nonempty)

/-! ## Reading a pattern -/

theorem wildcardFree_nil : WildcardFree [] := fun _ h ↦ absurd h List.not_mem_nil

theorem wildcardFree_dropLast_cons {seg : Segment} {segs : List Segment} :
    WildcardFree (seg :: segs).dropLast ↔
      WildcardFree segs.dropLast ∧ (seg.label = .wildcard → segs = []) := by
  rcases segs with _ | ⟨seg', segs⟩
  · exact iff_of_true wildcardFree_nil ⟨wildcardFree_nil, fun _ ↦ rfl⟩
  · rw [List.dropLast_cons_cons, WildcardFree, List.forall_mem_cons, and_comm]
    exact and_congr_right fun _ ↦ ⟨fun hne h ↦ absurd h hne, fun h hlabel ↦ by cases h hlabel⟩

theorem parseTokens_eq_some_iff {toks : List Bytes} (htoks : ∀ tok ∈ toks, tok ≠ [] ∧ slash ∉ tok) :
    ∀ {b : Bool} {segs : List Segment}, parseTokens b toks = some segs ↔
      toks = segs.map Segment.render ∧ WellFormed (fun _ ↦ True) segs ∧ (b = true → segs = []) := by
  induction toks with
  | nil =>
    intro b segs
    rw [parseTokens, Option.some.injEq]
    constructor
    · rintro rfl
      exact ⟨rfl, ⟨fun _ h ↦ absurd h List.not_mem_nil, wildcardFree_nil⟩, fun _ ↦ rfl⟩
    · rintro ⟨hnil, -⟩
      exact (List.map_eq_nil_iff.mp hnil.symm).symm
  | cons tok toks ih =>
    intro b segs
    obtain ⟨htok, hrest⟩ := List.forall_mem_cons.mp htoks
    have ih := @ih hrest
    rw [parseTokens_cons htok.1]
    rcases b with _ | _
    · rw [if_neg Bool.false_ne_true]
      constructor
      · intro h
        obtain ⟨seg, hseg, h⟩ := Option.bind_eq_some_iff.mp h
        obtain ⟨rest, hrest, rfl⟩ := Option.map_eq_some_iff.mp h
        obtain ⟨rfl, hwell⟩ := (parseToken_eq_some_iff htok).mp hseg
        obtain ⟨rfl, hrest, hlast⟩ := ih.mp hrest
        refine ⟨rfl, ⟨List.forall_mem_cons.mpr ⟨hwell, hrest.segment⟩, ?_⟩, fun h ↦ by cases h⟩
        exact wildcardFree_dropLast_cons.mpr
          ⟨hrest.wildcardLast, fun hlabel ↦ hlast (decide_eq_true hlabel)⟩
      · rintro ⟨hrender, hwell, -⟩
        rcases segs with _ | ⟨seg, rest⟩
        · cases hrender
        · obtain ⟨hseg, hsegs⟩ := List.forall_mem_cons.mp hwell.segment
          obtain ⟨hlast, hwildcard⟩ := wildcardFree_dropLast_cons.mp hwell.wildcardLast
          obtain ⟨htok', htoks'⟩ := List.cons.inj hrender
          rw [(parseToken_eq_some_iff htok).mpr ⟨htok', hseg⟩, Option.bind_some,
            ih.mpr ⟨htoks', ⟨hsegs, hlast⟩, fun h ↦ hwildcard (of_decide_eq_true h)⟩]
          rfl
    · rw [if_pos rfl]
      refine iff_of_false (by simp) ?_
      rintro ⟨hrender, -, hnil⟩
      rw [hnil rfl] at hrender
      cases hrender

theorem parseTokens_filter (toks : List Bytes) :
    ∀ b : Bool, parseTokens b (toks.filter (· ≠ [])) = parseTokens b toks := by
  induction toks with
  | nil => exact fun _ ↦ rfl
  | cons tok toks ih =>
    intro b
    by_cases htok : tok = []
    · rw [List.filter_cons_of_neg (by simpa using htok), ih, htok]
      rfl
    · rw [List.filter_cons_of_pos (by simpa using htok), parseTokens_cons htok,
        parseTokens_cons htok]
      simp only [ih]

theorem parsePattern_eq (p : Bytes) :
    parsePattern p = if p.head? = some slash then parseTokens false (tokens slash p) else none := by
  rcases p with _ | ⟨b, p⟩
  · rfl
  · rw [parsePattern]
    by_cases hb : b = slash
    · rw [if_pos hb, if_pos (show (b :: p).head? = some slash from congrArg some hb), hb,
        tokens_cons_self, tokens, parseTokens_filter]
    · rw [if_neg hb, if_neg fun h : (b :: p).head? = some slash ↦ hb (Option.some.inj h)]

/-- **Patterns are read as they are written**, whatever the names are. -/
theorem parsePattern_eq_some_iff {p : Bytes} {segs : List Segment} :
    parsePattern p = some segs ↔ p.head? = some slash ∧ WellFormed (fun _ ↦ True) segs ∧
      tokens slash p = segs.map Segment.render := by
  have htoks : ∀ tok ∈ tokens slash p, tok ≠ [] ∧ slash ∉ tok := fun tok htok ↦
    ⟨(of_mem_tokens htok).1, (of_mem_tokens htok).2.1⟩
  rw [parsePattern_eq]
  split_ifs with hhead
  · rw [parseTokens_eq_some_iff htoks]
    exact ⟨fun h ↦ ⟨hhead, h.2.1, h.1⟩, fun h ↦ ⟨h.2.2, h.2.1, fun hb ↦ by cases hb⟩⟩
  · exact iff_of_false (by simp) fun h ↦ hhead h.1

/-- **The tokens of a pattern** are those of a path: there are as many segments as tokens, and the
literals are the tokens that are not in braces. -/
theorem parsePattern_getElem {p : Bytes} {segs : List Segment} (h : parsePattern p = some segs) :
    segs.length = (segments p).length ∧ ∀ (i : ℕ) (literal : Bytes),
      segs[i]? = some (.static literal) ↔
        (segments p)[i]? = some literal ∧ ¬∃ inner, literal = braced inner := by
  obtain ⟨-, hwell, htokens⟩ := parsePattern_eq_some_iff.mp h
  rw [segments_eq_tokens, htokens, List.length_map]
  refine ⟨rfl, fun i literal ↦ ?_⟩
  rw [List.getElem?_map]
  constructor
  · intro hi
    refine ⟨congrArg _ hi, ?_⟩
    rintro ⟨inner, rfl⟩
    exact not_braceFree_braced inner
      (hwell.segment _ (List.mem_of_getElem? hi)).unambiguous
  · rintro ⟨hi, hbraced⟩
    obtain ⟨seg, hseg, hrender⟩ := Option.map_eq_some_iff.mp hi
    rw [hseg]
    rcases seg with literal' | ⟨name, paramType⟩ | name
    · exact congrArg (some ∘ Segment.static) hrender
    · exact absurd ⟨_, hrender.symm⟩ hbraced
    · exact absurd ⟨_, hrender.symm⟩ hbraced

/-! ## Names with braces -/

theorem Segment.WellFormed.mono {seg : Segment} {allowed : Bytes → Prop}
    (h : seg.WellFormed allowed) : seg.WellFormed fun _ ↦ True := by
  refine ⟨h.nonempty, h.slashFree, h.unambiguous, ?_⟩
  rcases seg with _ | _ | _ <;> trivial

theorem WellFormed.mono {segs : List Segment} {allowed : Bytes → Prop}
    (h : WellFormed allowed segs) : WellFormed (fun _ ↦ True) segs :=
  ⟨fun seg hseg ↦ (h.segment seg hseg).mono, h.wildcardLast⟩

/-- No token in braces has another brace inside. -/
def InnerBraceFree (p : Bytes) : Prop := ∀ inner, braced inner ∈ tokens slash p → BraceFree inner

theorem braceFree_append {text text' : Bytes} :
    BraceFree (text ++ text') ↔ BraceFree text ∧ BraceFree text' := by
  simp only [BraceFree, List.mem_append, not_or]
  exact and_and_and_comm

theorem braceFree_suffix (paramType : ParamType) : BraceFree paramType.suffix := by
  cases paramType <;> unfold BraceFree <;> decide

theorem braced_injective : Function.Injective braced := fun _ _ h ↦
  List.append_cancel_right (List.cons.inj h).2

theorem namedBy_braceFree_iff {seg : Segment} (hseg : seg.Unambiguous) :
    seg.NamedBy BraceFree ↔ ∀ inner, seg.render = braced inner → BraceFree inner := by
  rcases seg with literal | ⟨name, paramType⟩ | name
  · refine iff_of_true trivial fun inner hinner ↦ ?_
    exact absurd (hinner ▸ hseg) (not_braceFree_braced inner)
  · have hsuffix := braceFree_suffix paramType
    constructor
    · intro hname inner hinner
      rw [← braced_injective hinner]
      exact braceFree_append.mpr ⟨hname, hsuffix⟩
    · exact fun h ↦ (braceFree_append.mp (h _ rfl)).1
  · constructor
    · intro hname inner hinner
      rw [← braced_injective hinner]
      refine braceFree_append.mpr ⟨hname, ?_⟩
      unfold BraceFree
      decide
    · exact fun h ↦ (braceFree_append.mp (h _ rfl)).1

theorem inGrammar_braceFree_iff {p : Bytes} :
    InGrammar BraceFree p ↔ InGrammar (fun _ ↦ True) p ∧ InnerBraceFree p := by
  constructor
  · rintro ⟨hhead, segs, hwell, htokens⟩
    refine ⟨⟨hhead, segs, hwell.mono, htokens⟩, fun inner hinner ↦ ?_⟩
    obtain ⟨seg, hseg, hrender⟩ := List.mem_map.mp (htokens ▸ hinner)
    have hseg := hwell.segment seg hseg
    exact (namedBy_braceFree_iff hseg.unambiguous).mp hseg.named inner hrender
  · rintro ⟨⟨hhead, segs, hwell, htokens⟩, hinner⟩
    refine ⟨hhead, segs, ⟨fun seg hseg ↦ ?_, hwell.wildcardLast⟩, htokens⟩
    have hmem : seg.render ∈ tokens slash p := htokens ▸ List.mem_map_of_mem hseg
    have hseg := hwell.segment seg hseg
    refine ⟨hseg.nonempty, hseg.slashFree, hseg.unambiguous, ?_⟩
    rw [namedBy_braceFree_iff hseg.unambiguous]
    exact fun inner hrender ↦ hinner inner (hrender ▸ hmem)

theorem exists_parsePattern_iff {p : Bytes} :
    (∃ segs, parsePattern p = some segs) ↔ InGrammar (fun _ ↦ True) p := by
  simp only [parsePattern_eq_some_iff, InGrammar, exists_and_left]

/-! ## Round trip -/

theorem slash_not_mem_braced {inner : Bytes} (h : slash ∉ inner) : slash ∉ braced inner := by
  rw [braced, List.mem_cons, List.mem_append, List.mem_singleton]
  exact not_or.mpr ⟨by decide, not_or.mpr ⟨h, by decide⟩⟩

theorem Segment.WellFormed.isToken {seg : Segment} {allowed : Bytes → Prop}
    (h : seg.WellFormed allowed) : seg.render ≠ [] ∧ slash ∉ seg.render := by
  have hslash := h.slashFree
  rcases seg with literal | ⟨name, paramType⟩ | name
  · exact ⟨h.nonempty, hslash⟩
  · have hsuffix : slash ∉ paramType.suffix := by
      cases paramType <;> decide
    refine ⟨List.cons_ne_nil _ _, slash_not_mem_braced fun hmem ↦ ?_⟩
    exact (List.mem_append.mp hmem).elim hslash hsuffix
  · refine ⟨List.cons_ne_nil _ _, slash_not_mem_braced fun hmem ↦ ?_⟩
    exact (List.mem_append.mp hmem).elim hslash (by decide)

/-- **What is written is read back.** -/
theorem parsePattern_renderPattern {segs : List Segment} {allowed : Bytes → Prop}
    (h : Aevox.WellFormed allowed segs) : parsePattern (renderPattern segs) = some segs := by
  refine parsePattern_eq_some_iff.mpr ⟨rfl, h.mono, ?_⟩
  rw [renderPattern, tokens_cons_self, tokens_intercalate]
  exact List.forall_mem_map.mpr fun seg hseg ↦ (h.segment seg hseg).isToken

/-- **The parser and the grammar.** A text is accepted exactly if it is in the grammar, unless it
would be in the grammar but for a brace inside of a pair of braces. What is accepted is cut into
tokens as a path is, and well-formed segments are read back. -/
theorem parsePattern_grammar_iff (p : Bytes) :
    (((∃ segs, parsePattern p = some segs) ↔ InGrammar BraceFree p) ↔
      (InGrammar (fun _ ↦ True) p → InnerBraceFree p)) ∧
    (∀ segs, parsePattern p = some segs → segs.length = (segments p).length ∧
      ∀ (i : ℕ) (literal : Bytes), segs[i]? = some (.static literal) ↔
        (segments p)[i]? = some literal ∧ ¬∃ inner, literal = braced inner) ∧
    ∀ segs, WellFormed BraceFree segs → parsePattern (renderPattern segs) = some segs := by
  refine ⟨?_, fun segs ↦ parsePattern_getElem, fun segs ↦ parsePattern_renderPattern⟩
  rw [exists_parsePattern_iff, inGrammar_braceFree_iff]
  exact ⟨fun h hp ↦ (h.mp hp).2, fun h ↦ ⟨fun hp ↦ ⟨hp, h hp⟩, And.left⟩⟩

/-- `/{a}-{b}` is accepted, as a parameter whose name contains braces. -/
theorem not_grammar :
    ¬∀ p, (∃ segs, parsePattern p = some segs) ↔ InGrammar BraceFree p := by
  intro h
  have hparse : parsePattern (ascii "/\x7ba\x7d-\x7bb\x7d") =
      some [.param (ascii "a\x7d-\x7bb") .none] := by decide
  have hinner := (inGrammar_braceFree_iff.mp ((h _).mp ⟨_, hparse⟩)).2
  have hmem : braced (ascii "a\x7d-\x7bb") ∈
      tokens slash (ascii "/\x7ba\x7d-\x7bb\x7d") := by decide
  exact (hinner _ hmem).2 (by decide)

end Aevox
