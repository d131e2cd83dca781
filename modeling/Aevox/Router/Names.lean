import Aevox.Router.Soundness
import Mathlib.Data.List.Nodup

/-!
# Under which names parameters are bound

A parameter node has one name, and every pattern that passes the node shares it. The name is the one
the node was created with, so it is spelled by the first registration that reached the node
(`nameAt_build`); later patterns that spell it differently find their parameter under the other
name. Hence a route's handler sees its own names exactly when, at each of its parameters, the first
registration to get there spells the parameter as the route does (`binds_own_names_iff`).
-/

namespace Aevox

open PreferenceWalk

/-! ## The names of a pattern -/

/-- The literal of a static segment, the name otherwise. -/
def Segment.text : Segment → Bytes
  | .static literal => literal
  | .param name _ => name
  | .wildcard name => name

/-- `extract_param_names` -/
def extractParamNames : List Segment → List Bytes
  | [] => []
  | .static _ :: segs => extractParamNames segs
  | .param name _ :: segs => name :: extractParamNames segs
  | .wildcard name :: segs => name :: extractParamNames segs

variable {η : Type}

/-- The pattern of a registration from the root on. -/
def Registration.pattern : Registration η → List Segment
  | .route scope _ segs _ => scope ++ segs
  | .group scope segs => scope ++ segs

theorem Registration.word_eq (r : Registration η) : r.word = shape r.pattern := by
  rcases r with _ | _ <;> rfl

namespace TrieNode

/-! ## The text of a node -/

/-- The text of the node a word leads to. -/
def nameAt (node : TrieNode η) (word : List Label) : Option Bytes :=
  (nodeAt word node).map segment

theorem nameAt_cons (l : Label) (word : List Label) (node : TrieNode η) :
    node.nameAt (l :: word) = (node.child l).bind (nameAt · word) := by
  rw [nameAt, nodeAt_cons, Option.map_bind]
  rfl

theorem segment_fresh (seg : Segment) : (fresh seg : TrieNode η).segment = seg.text := by
  rcases seg with _ | _ | _ <;> rfl

/-- An update below names the nodes it creates and renames none. -/
theorem nameAt_updateAt {f : TrieNode η → TrieNode η} (hf : KeepsText f) (hc : KeepsChildren f)
    {segs : List Segment} : ∀ {node : TrieNode η} {l : Label} {word : List Label},
    (updateAt f segs node).nameAt (l :: word) = (node.nameAt (l :: word)).or
      (if l :: word <+: shape segs then (segs[word.length]?).map Segment.text else none) := by
  induction segs with
  | nil =>
    intro node l word
    rw [updateAt, nameAt_cons, nameAt_cons, hc node l]
    simp
  | cons seg segs ih =>
    intro node l word
    rw [updateAt, nameAt_cons, nameAt_cons, child_updateChild (keepsText_updateAt hf segs)]
    by_cases hl : l = seg.label
    · subst hl
      rw [if_pos rfl, Option.bind_some]
      rcases word with _ | ⟨k, word⟩
      · -- the child itself keeps its text, or gets the segment's
        rw [nameAt, nodeAt_nil, Option.map_some, keepsText_updateAt hf segs]
        rcases node.child seg.label with _ | c
        · simp [segment_fresh, List.cons_prefix_cons]
        · simp [nameAt]
      · rw [ih]
        rcases node.child seg.label with _ | c
        · rw [Option.getD_none, nameAt, nodeAt_fresh_cons]
          simp [List.cons_prefix_cons]
        · simp [List.cons_prefix_cons]
    · rw [if_neg hl]
      have hpre : ¬l :: word <+: shape (seg :: segs) := by
        rw [shape_cons, List.cons_prefix_cons]
        exact fun h ↦ hl h.1
      rw [if_neg hpre, Option.or_none]

end TrieNode

/-! ## The first spelling -/

/-- How a registration spells the end of a word it reaches. -/
def Registration.spelling (word : List Label) (r : Registration η) : Option Bytes :=
  if word <+: r.word then (r.pattern[word.length - 1]?).map Segment.text else none

/-- How the first registration that reaches a word spells its end. -/
def firstSpelling (regs : List (Registration η)) (word : List Label) : Option Bytes :=
  regs.findSome? (Registration.spelling word)

/-- **A node has the name of the first registration that reached it.** -/
theorem nameAt_build (regs : List (Registration η)) (l : Label) (word : List Label) :
    (build regs).nameAt (l :: word) = firstSpelling regs (l :: word) := by
  induction regs using List.reverseRecOn with
  | nil => rcases l with _ | _ | _ <;> rfl
  | append_singleton regs r ih =>
    have hstep : (build (regs ++ [r])).nameAt (l :: word)
        = ((build regs).nameAt (l :: word)).or (r.spelling (l :: word)) := by
      rw [build, List.foldl_append]
      rcases r with ⟨scope, method, segs, handler⟩ | ⟨scope, segs⟩
      · exact TrieNode.nameAt_updateAt (TrieNode.keepsText_setHandler method handler)
          (TrieNode.keepsChildren_setHandler method handler)
      · exact TrieNode.nameAt_updateAt (fun _ ↦ rfl) (fun _ _ ↦ rfl)
    rw [hstep, ih, firstSpelling, firstSpelling, List.findSome?_append]
    simp

/-! ## A route's own names -/

/-- Along a pattern, begun behind the word `w`, the first registration to reach each parameter
spells it as the pattern does. -/
def OwnSpelling (regs : List (Registration η)) : List Label → List Segment → Prop
  | _, [] => True
  | w, .static literal :: segs => OwnSpelling regs (w ++ [.static literal]) segs
  | w, .param name _ :: segs =>
    firstSpelling regs (w ++ [.param]) = some name ∧ OwnSpelling regs (w ++ [.param]) segs
  | w, .wildcard name :: segs =>
    firstSpelling regs (w ++ [.wildcard]) = some name ∧ OwnSpelling regs (w ++ [.wildcard]) segs

theorem firstSpelling_concat {regs : List (Registration η)} {w : List Label} {node : TrieNode η}
    (hw : TrieNode.nodeAt w (build regs) = some node) (l : Label) :
    firstSpelling regs (w ++ [l]) = (node.child l).map TrieNode.segment := by
  obtain ⟨k, word, hword⟩ := List.exists_cons_of_ne_nil
    (List.append_ne_nil_of_right_ne_nil w (List.cons_ne_nil l []))
  rw [hword, ← nameAt_build, ← hword, TrieNode.nameAt, TrieNode.nodeAt_concat_of hw]

/-- The names on the way are the pattern's own exactly when they are spelled so first. -/
theorem trail_eq_iff {regs : List (Registration η)} {q : List Segment} :
    ∀ {w : List Label} {node : TrieNode η}, TrieNode.nodeAt w (build regs) = some node →
      (TrieNode.nodeAt (shape q) node).isSome →
      (TrieNode.trail (shape q) node = extractParamNames q ↔ OwnSpelling regs w q) := by
  induction q with
  | nil => exact fun _ _ ↦ iff_of_true rfl trivial
  | cons seg q ih =>
    intro w node hw hq
    rw [shape_cons, TrieNode.nodeAt_cons, Option.isSome_iff_exists] at hq
    obtain ⟨n, hn⟩ := hq
    obtain ⟨c, hc, hbelow⟩ := Option.bind_eq_some_iff.mp hn
    have hwc := (TrieNode.nodeAt_concat_of hw seg.label).trans hc
    have hih := ih hwc (Option.isSome_iff_exists.mpr ⟨n, hbelow⟩)
    cases seg with
    | static literal =>
      have hchild : node.child (.static literal) = some c := hc
      rw [shape_cons, Segment.label, TrieNode.trail, hchild]
      exact hih
    | param name paramType =>
      have hchild : node.child .param = some c := hc
      rw [shape_cons, Segment.label, TrieNode.trail, hchild, Option.elim_some, extractParamNames,
        OwnSpelling, firstSpelling_concat hw, hchild, Option.map_some, List.cons.injEq,
        Option.some.injEq]
      exact and_congr_right fun _ ↦ hih
    | wildcard name =>
      have hchild : node.child .wildcard = some c := hc
      rw [shape_cons, Segment.label, TrieNode.trail, hchild, Option.elim_some, extractParamNames,
        OwnSpelling, firstSpelling_concat hw, hchild, Option.map_some, List.cons.injEq,
        Option.some.injEq]
      exact and_congr_right fun _ ↦ hih

/-! ## The invoked route -/

/-- The route whose handler a shape's node has for a method: the last one registered, unless its
function is empty. -/
def latestRoute (regs : List (Registration η)) (method : Fin kMethodCount) (word : List Label) :
    Option (Registration η) :=
  (regs.reverse.find? fun r ↦ (r.sets method word).isSome).filter fun r ↦
    (r.sets method word).join.isSome

private theorem findSome?_of_find? {α β : Type} {f : α → Option β} {l : List α} {a : α}
    (h : l.find? (fun a ↦ (f a).isSome) = some a) : l.findSome? f = f a := by
  induction l with
  | nil => cases h
  | cons b l ih =>
    rw [List.find?_cons] at h
    rw [List.findSome?_cons]
    rcases hb : f b with _ | c
    · rw [hb] at h
      exact ih h
    · rw [hb] at h
      rw [← Option.some.inj h, hb]

theorem exists_sets_of_latestRoute {regs : List (Registration η)} {method : Fin kMethodCount}
    {word : List Label} {r : Registration η} (h : latestRoute regs method word = some r) :
    ∃ handler, r.sets method word = some (some handler) ∧
      latest regs method word = some handler := by
  obtain ⟨hfind, hsome⟩ := Option.filter_eq_some_iff.mp h
  obtain ⟨handler, hsets⟩ := Option.isSome_iff_exists.mp hsome
  refine ⟨handler, Option.join_eq_some_iff.mp hsets, ?_⟩
  rw [latest, ← hsets]
  exact congrArg Option.join (findSome?_of_find? hfind)

/-- The route whose handler is invoked for a path. -/
def invokedRoute (regs : List (Registration η)) (method : Fin kMethodCount) (path : Bytes) :
    Option (Registration η) :=
  (pathScheme.walk (known regs) [] (segments path)).bind (latestRoute regs method)

theorem invokedRoute_eq_some_iff {regs : List (Registration η)} {method : Fin kMethodCount}
    {path : Bytes} {r : Registration η} :
    invokedRoute regs method path = some r ↔
      pathScheme.walk (known regs) [] (segments path) = some r.word ∧
        latestRoute regs method r.word = some r := by
  rw [invokedRoute, Option.bind_eq_some_iff]
  constructor
  · rintro ⟨word, hwalk, hroute⟩
    obtain ⟨handler, hsets, -⟩ := exists_sets_of_latestRoute hroute
    obtain rfl := Registration.word_of_sets (hsets ▸ Option.some_ne_none _)
    exact ⟨hwalk, hroute⟩
  · exact fun ⟨hwalk, hroute⟩ ↦ ⟨r.word, hwalk, hroute⟩

theorem dispatch_invokedRoute {regs : List (Registration η)} {method : HttpMethod}
    (hm : method.index < kMethodCount) {path : Bytes} {r : Registration η}
    (hroute : invokedRoute regs ⟨method.index, hm⟩ path = some r) :
    ∃ handler, r.sets ⟨method.index, hm⟩ r.word = some (some handler) ∧
      (routerOf regs).dispatch method path = .invoke handler
        ((TrieNode.trail r.word (build regs)).zip (pathPieces r.word path)) := by
  obtain ⟨hwalk, hlatest⟩ := invokedRoute_eq_some_iff.mp hroute
  obtain ⟨handler, hhandler, hlast⟩ := exists_sets_of_latestRoute hlatest
  refine ⟨handler, hhandler, ?_⟩
  rw [dispatch_eq, dif_pos hm, hwalk]
  dsimp only
  rw [answerAt, hlast]

/-! ## A path that tells the names apart -/

/-- A request binds every piece of its path under the pattern's own name for it. -/
def Request.BindsOwn (req : Request) (q : List Segment) (path : Bytes) : Prop :=
  ∀ nv ∈ (extractParamNames q).zip (pathPieces (shape q) path), req.findParam nv.1 = some nv.2

private theorem find?_zip_of_nodup {names : List Bytes} : ∀ {values : List Bytes},
    names.Nodup → ∀ nv ∈ names.zip values,
      (names.zip values).find? (fun kv ↦ kv.1 = nv.1) = some nv := by
  induction names with
  | nil => exact fun _ nv hnv ↦ by cases hnv
  | cons name names ih =>
    intro values hnodup nv hnv
    rcases values with _ | ⟨value, values⟩
    · cases hnv
    · rw [List.nodup_cons] at hnodup
      rw [List.zip_cons_cons, List.mem_cons] at hnv
      rcases hnv with rfl | hnv
      · simp
      · have hne : name ≠ nv.1 := by
          rintro rfl
          exact hnodup.1 (List.of_mem_zip hnv).1
        rw [List.zip_cons_cons, List.find?_cons_of_neg (by simpa using hne)]
        exact ih hnodup.2 nv hnv

private theorem names_eq_of_find? {names own values : List Bytes} (hvalues : values.Nodup)
    (hnames : names.length = values.length) (hown : own.length = values.length)
    (h : ∀ nv ∈ own.zip values,
      ((names.zip values).find? fun kv ↦ kv.1 = nv.1).map Prod.snd = some nv.2) :
    names = own := by
  refine List.ext_getElem (hnames.trans hown.symm) fun i hi hi' ↦ ?_
  have hiv : i < values.length := hnames ▸ hi
  have hmem : (own[i], values[i]) ∈ own.zip values := by
    rw [List.mem_iff_getElem]
    exact ⟨i, by rw [List.length_zip]; exact lt_min hi' hiv, List.getElem_zip⟩
  obtain ⟨kv, hfind, hvalue⟩ := Option.map_eq_some_iff.mp (h _ hmem)
  have hkey : kv.1 = own[i] := by simpa using List.find?_some hfind
  obtain ⟨j, hj, hkv⟩ := List.mem_iff_getElem.mp (List.mem_of_find?_eq_some hfind)
  rw [List.getElem_zip] at hkv
  subst hkv
  -- the position found is this one
  obtain rfl : j = i := (List.Nodup.getElem_inj_iff hvalues).mp hvalue
  exact hkey

/-- Segments no registered literal is as long as, one for each parameter; a wildcard gets none. -/
def freshSegments : ℕ → List Label → List Bytes
  | n, .static s :: ls => s :: freshSegments n ls
  | n, .param :: ls => List.replicate (n + 1) 49 :: freshSegments (n + 1) ls
  | _, _ => []

/-- A path with these segments. -/
def joinSegments (ts : List Bytes) : Bytes := ts.flatMap fun t ↦ t ++ [slash]

theorem joinSegments_cons (t : Bytes) (ts : List Bytes) :
    joinSegments (t :: ts) = t ++ slash :: joinSegments ts := by
  simp [joinSegments]

theorem segments_joinSegments {ts : List Bytes} (h : ∀ t ∈ ts, t ≠ [] ∧ slash ∉ t) :
    segments (joinSegments ts) = ts := by
  rw [segments_eq_tokens]
  induction ts with
  | nil => exact Delimited.tokens_nil slash
  | cons t ts ih =>
    obtain ⟨⟨hne, hslash⟩, hts⟩ := List.forall_mem_cons.mp h
    rw [joinSegments_cons, Delimited.tokens_append_cons, Delimited.tokens_of_not_mem hslash,
      if_neg hne, ih hts]
    rfl

theorem matchesPath_freshSegments {ls : List Label} {ts : List Bytes} (h : MatchesPath ls ts) :
    ∀ n, MatchesPath ls (freshSegments n ls) := by
  induction h using matchesPath_induction with
  | nil => exact fun _ ↦ trivial
  | static s ls ts _ ih => exact fun n ↦ ⟨rfl, ih n⟩
  | param t ls ts _ ih => exact fun n ↦ ih (n + 1)
  | wildcard ts => exact fun _ ↦ trivial

theorem forall_mem_freshSegments {P : Bytes → Prop} (hP : ∀ n, P (List.replicate (n + 1) 49))
    {ls : List Label} {ts : List Bytes} (h : MatchesPath ls ts) (hts : ∀ t ∈ ts, P t) :
    ∀ n, ∀ t ∈ freshSegments n ls, P t := by
  induction h using matchesPath_induction with
  | nil => exact fun _ _ ht ↦ absurd ht List.not_mem_nil
  | static s ls ts _ ih =>
    obtain ⟨hs, hts⟩ := List.forall_mem_cons.mp hts
    exact fun n ↦ List.forall_mem_cons.mpr ⟨hs, ih hts n⟩
  | param t ls ts _ ih =>
    obtain ⟨-, hts⟩ := List.forall_mem_cons.mp hts
    exact fun n ↦ List.forall_mem_cons.mpr ⟨hP n, ih hts (n + 1)⟩
  | wildcard ts => exact fun _ _ ht ↦ absurd ht List.not_mem_nil

theorem split_segment {t : Bytes} (hne : t ≠ []) (hslash : slash ∉ t) (rest : Bytes) :
    (t ++ slash :: rest).dropWhile (· = slash) = t ++ slash :: rest ∧
      (t ++ slash :: rest).takeWhile (· ≠ slash) = t ∧
      (t ++ slash :: rest).dropWhile (· ≠ slash) = slash :: rest := by
  have hall : ∀ b ∈ t, decide (b ≠ slash) = true := fun b hb ↦
    decide_eq_true (fun h ↦ hslash (h ▸ hb))
  refine ⟨?_, ?_, ?_⟩
  · rcases t with _ | ⟨b, t⟩
    · exact absurd rfl hne
    · have hb : b ≠ slash := fun h ↦ hslash (h ▸ List.mem_cons_self)
      simp [hb]
  · rw [List.takeWhile_append_of_pos hall]
    simp
  · rw [List.dropWhile_append_of_pos hall]
    simp

theorem pathPieces_joinSegments {ls : List Label} {ts : List Bytes} (h : MatchesPath ls ts) :
    ∀ {n : ℕ}, (∀ t ∈ freshSegments n ls, t ≠ [] ∧ slash ∉ t) →
      (pathPieces ls (joinSegments (freshSegments n ls))).Nodup ∧
        ∀ p ∈ pathPieces ls (joinSegments (freshSegments n ls)), p = [] ∨ n < p.length := by
  induction h using matchesPath_induction with
  | nil => exact fun _ ↦ ⟨List.nodup_nil, fun p hp ↦ absurd hp List.not_mem_nil⟩
  | static s ls ts _ ih =>
    intro n hgood
    obtain ⟨⟨hne, hslash⟩, hgood⟩ := List.forall_mem_cons.mp hgood
    obtain ⟨hskip, -, hrest⟩ := split_segment hne hslash (joinSegments (freshSegments n ls))
    rw [freshSegments, joinSegments_cons, pathPieces, hskip, hrest, pathPieces_cons_slash]
    exact ih hgood
  | param t ls ts _ ih =>
    intro n hgood
    obtain ⟨⟨hne, hslash⟩, hgood⟩ := List.forall_mem_cons.mp hgood
    obtain ⟨hskip, hrun, hrest⟩ :=
      split_segment hne hslash (joinSegments (freshSegments (n + 1) ls))
    rw [freshSegments, joinSegments_cons, pathPieces, hskip, hrun, hrest, pathPieces_cons_slash]
    obtain ⟨hnodup, hlong⟩ := ih hgood
    refine ⟨List.nodup_cons.mpr ⟨fun hmem ↦ ?_, hnodup⟩, List.forall_mem_cons.mpr ⟨?_, ?_⟩⟩
    · -- a later piece is empty or longer
      rcases hlong _ hmem with hnil | hlt
      · exact hne hnil
      · rw [List.length_replicate] at hlt
        exact lt_irrefl _ hlt
    · rw [List.length_replicate]
      exact Or.inr (Nat.lt_succ_self n)
    · exact fun p hp ↦ (hlong p hp).imp_right (Nat.lt_of_succ_lt)
  | wildcard ts =>
    intro n _
    simp [freshSegments, joinSegments, pathPieces]

theorem preferred_freshSegments {regs : List (Registration η)} {N : ℕ}
    (hN : ∀ w t, known regs (w ++ [.static t]) = true → t.length ≤ N) {ls : List Label}
    {ts : List Bytes} (h : MatchesPath ls ts) :
    ∀ {w : List Label} {n : ℕ}, N ≤ n → pathScheme.Unrivalled (known regs) w ls ts →
      pathScheme.Unrivalled (known regs) w ls (freshSegments n ls) := by
  induction h using matchesPath_induction with
  | nil => exact fun _ hpref ↦ hpref
  | static s ls ts _ ih =>
    intro w n hn hpref
    rw [Scheme.unrivalled_cons_cons] at hpref
    rw [freshSegments, Scheme.unrivalled_cons_cons]
    exact ⟨hpref.1, fun hstop ↦ ih hn (hpref.2 hstop)⟩
  | param t ls ts _ ih =>
    intro w n hn hpref
    rw [Scheme.unrivalled_cons_cons] at hpref
    rw [freshSegments, Scheme.unrivalled_cons_cons]
    refine ⟨?_, fun hstop ↦ ih (Nat.le_succ_of_le hn) (hpref.2 hstop)⟩
    -- only a literal of this text would be preferred, and none is as long
    simp only [pathScheme, List.takeWhile_cons]
    intro k hk
    have hk' : k = .static (List.replicate (n + 1) 49) := by simpa using hk
    rw [hk', Bool.eq_false_iff]
    intro hknown
    have hlong := hN w _ hknown
    rw [List.length_replicate] at hlong
    omega
  | wildcard ts =>
    intro w n _ _
    rw [freshSegments.eq_def, Scheme.unrivalled_cons_nil]
    intro k hk
    simp [pathScheme] at hk

private theorem exists_literal_bound (ls : List Label) :
    ∃ N, ∀ t, Label.static t ∈ ls → t.length ≤ N := by
  induction ls with
  | nil => exact ⟨0, fun t ht ↦ by cases ht⟩
  | cons l ls ih =>
    obtain ⟨N, hN⟩ := ih
    rcases l with s | _ | _
    · refine ⟨max s.length N, fun t ht ↦ ?_⟩
      rcases List.mem_cons.mp ht with hts | ht
      · cases hts
        exact le_max_left _ _
      · exact (hN t ht).trans (le_max_right _ _)
    · exact ⟨N, fun t ht ↦ hN t (by simpa using ht)⟩
    · exact ⟨N, fun t ht ↦ hN t (by simpa using ht)⟩

theorem exists_length_bound (regs : List (Registration η)) :
    ∃ N, ∀ w t, known regs (w ++ [.static t]) = true → t.length ≤ N := by
  obtain ⟨N, hN⟩ := exists_literal_bound (regs.flatMap Registration.word)
  refine ⟨N, fun w t h ↦ hN t ?_⟩
  rw [known, Bool.or_eq_true, List.any_eq_true] at h
  rcases h with h | ⟨r, hr, hpre⟩
  · simp at h
  · refine List.mem_flatMap.mpr ⟨r, hr, (of_decide_eq_true hpre).subset ?_⟩
    exact List.mem_append_right w List.mem_cons_self

/-- The same request for another path. -/
def Request.withPath (req : Request) (path : Bytes) : Request :=
  { req with parsed := { req.parsed with target := path } }

theorem Request.path_withPath (req : Request) {path : Bytes} (h : 63 ∉ path) :
    (req.withPath path).path = path :=
  List.takeWhile_eq_self_iff.mpr fun _ hb ↦ decide_eq_true fun hb' ↦ h (hb' ▸ hb)

/-- What the router can see of a segment of a request's path. -/
theorem of_mem_segments {req : Request} {t : Bytes} (h : t ∈ segments req.path) :
    (t ≠ [] ∧ slash ∉ t) ∧ 63 ∉ t := by
  rw [segments_eq_tokens] at h
  obtain ⟨hne, hslash, hsub⟩ := Delimited.of_mem_tokens h
  exact ⟨⟨hne, hslash⟩, fun hmem ↦ by simpa using List.mem_takeWhile_imp (hsub hmem)⟩

/-- A route some request reaches is also reached by one whose pieces are pairwise distinct. -/
theorem exists_distinct_pieces {regs : List (Registration η)} {method : Fin kMethodCount}
    {req₀ : Request} {r : Registration η} (hroute : invokedRoute regs method req₀.path = some r) :
    ∃ req : Request, req.method = req₀.method ∧ invokedRoute regs method req.path = some r ∧
      (pathPieces r.word req.path).Nodup := by
  obtain ⟨hwalk, hlatest⟩ := invokedRoute_eq_some_iff.mp hroute
  obtain ⟨hknown, hmatch, hpref⟩ := walk_known_sound hwalk
  obtain ⟨N, hN⟩ := exists_length_bound regs
  have hgood : ∀ t ∈ freshSegments N r.word, (t ≠ [] ∧ slash ∉ t) ∧ 63 ∉ t := by
    refine forall_mem_freshSegments (fun n ↦ ⟨⟨List.cons_ne_nil _ _, ?_⟩, ?_⟩) hmatch
      (fun t ht ↦ of_mem_segments ht) N
    · exact fun h ↦ absurd (List.eq_of_mem_replicate h) (by decide)
    · exact fun h ↦ absurd (List.eq_of_mem_replicate h) (by decide)
  have hsegs : ∀ t ∈ freshSegments N r.word, t ≠ [] ∧ slash ∉ t := fun t ht ↦ (hgood t ht).1
  have hpath : (req₀.withPath (joinSegments (freshSegments N r.word))).path
      = joinSegments (freshSegments N r.word) := by
    refine req₀.path_withPath fun hmem ↦ ?_
    obtain ⟨t, ht, hmem⟩ := List.mem_flatMap.mp hmem
    rcases List.mem_append.mp hmem with hmem | hmem
    · exact (hgood t ht).2 hmem
    · exact absurd (List.mem_singleton.mp hmem) (by decide)
  refine ⟨req₀.withPath (joinSegments (freshSegments N r.word)), rfl, ?_, ?_⟩
  · refine invokedRoute_eq_some_iff.mpr ⟨?_, hlatest⟩
    rw [hpath, segments_joinSegments hsegs]
    exact (walk_known_eq_some_iff hknown).mpr
      ⟨matchesPath_freshSegments hmatch N, preferred_freshSegments hN hmatch (le_refl N) hpref⟩
  · rw [hpath]
    exact (pathPieces_joinSegments hmatch hsegs).1

/-! ## Binding -/

theorem length_extractParamNames {q : List Segment} : ∀ {ts : List Bytes},
    MatchesPath (shape q) ts →
    ∀ text, (extractParamNames q).length = (pathPieces (shape q) text).length := by
  induction q with
  | nil => exact fun _ _ ↦ rfl
  | cons seg q ih =>
    intro ts h text
    rcases seg with literal | ⟨name, paramType⟩ | name
    · rcases ts with _ | ⟨t, ts⟩
      · simp [MatchesPath, Segment.label] at h
      · exact ih h.2 _
    · rcases ts with _ | ⟨t, ts⟩
      · simp [MatchesPath, Segment.label] at h
      · exact congrArg (· + 1) (ih h _)
    · obtain rfl := List.map_eq_nil_iff.mp (matchesPath_wildcard_iff.mp h)
      rfl

/-- **Whose names a handler finds.** For a route that some request reaches, every invocation binds
every piece under the route's own name exactly when, at each of its parameters, the first
registration to get there spells the parameter as this route does. -/
theorem binds_own_names_iff {regs : List (Registration η)} {req₀ : Request}
    (hm : req₀.method.index < kMethodCount) {r : Registration η}
    (hnodup : (extractParamNames r.pattern).Nodup)
    (hreached : invokedRoute regs ⟨req₀.method.index, hm⟩ req₀.path = some r) :
    (∀ req : Request, req.method = req₀.method →
      invokedRoute regs ⟨req₀.method.index, hm⟩ req.path = some r →
      ∃ handler captured,
        (routerOf regs).dispatch req.method req.path = .invoke handler captured ∧
          (req.withParams captured).BindsOwn r.pattern req.path)
      ↔ OwnSpelling regs [] r.pattern := by
  have hnode : (TrieNode.nodeAt (shape r.pattern) (build regs)).isSome = true := by
    have hknown := (walk_known_sound (invokedRoute_eq_some_iff.mp hreached).1).1
    rwa [← inside_build, r.word_eq] at hknown
  rw [← trail_eq_iff (TrieNode.nodeAt_nil (build regs)) hnode]
  constructor
  · intro h
    obtain ⟨req, hmethod, hroute, hvalues⟩ := exists_distinct_pieces hreached
    obtain ⟨handler, captured, hinvoke, hbinds⟩ := h req hmethod hroute
    obtain ⟨handler', -, hinvoke'⟩ := dispatch_invokedRoute hm hroute
    rw [hmethod] at hinvoke
    obtain ⟨-, rfl⟩ := Dispatch.invoke.inj (hinvoke.symm.trans hinvoke')
    have hwalk := (invokedRoute_eq_some_iff.mp hroute).1
    have hlen := length_trail_build hwalk req.path
    rw [r.word_eq] at hvalues hlen
    refine names_eq_of_find? hvalues hlen ?_ fun nv hnv ↦ ?_
    · have hmatch := (walk_known_sound hwalk).2.1
      rw [r.word_eq] at hmatch
      exact length_extractParamNames hmatch req.path
    · have hfound := hbinds nv hnv
      rwa [Request.findParam_withParams, r.word_eq] at hfound
  · intro hnames req hmethod hroute
    obtain ⟨handler, -, hinvoke⟩ := dispatch_invokedRoute hm hroute
    rw [hmethod]
    refine ⟨handler, _, hinvoke, fun nv hnv ↦ ?_⟩
    rw [Request.findParam_withParams, r.word_eq, hnames, find?_zip_of_nodup hnodup nv hnv]
    rfl

/-- `GET /users/{id}` and `GET /users/{id}/posts` spell their shared parameter alike. -/
theorem binds_own_names_users :
    ∃ handler captured, (routerOf [.route [] kGet [.static (ascii "users"),
        .param (ascii "id") .int] (some 1), .route [] kGet [.static (ascii "users"),
        .param (ascii "id") .none, .static (ascii "posts")] (some 2)]).dispatch .get
        (ascii "/users/8/posts") = .invoke handler captured ∧
      (Request.withParams { parsed := { method := ascii "GET", target := ascii "/users/8/posts" } }
        captured).BindsOwn [.static (ascii "users"), .param (ascii "id") .none,
          .static (ascii "posts")] (ascii "/users/8/posts") := by
  have hreached : invokedRoute
      [.route [] kGet [.static (ascii "users"), .param (ascii "id") .int] (some 1),
        .route [] kGet [.static (ascii "users"), .param (ascii "id") .none,
          .static (ascii "posts")] (some 2)]
      ⟨HttpMethod.get.index, by decide⟩
      (Request.path { parsed := { method := ascii "GET", target := ascii "/users/8/posts" } })
      = some (.route [] kGet [.static (ascii "users"), .param (ascii "id") .none,
          .static (ascii "posts")] (some 2)) := rfl
  exact (binds_own_names_iff (by decide) (by decide) hreached).mpr ⟨rfl, trivial⟩ _ rfl hreached

/-- `POST /users/{name}` behind `GET /users/{id}` finds its parameter under `id`. -/
theorem not_binds_own_names :
    ¬∀ regs : List (Registration ℕ), (∀ r ∈ regs, (extractParamNames r.pattern).Nodup) →
      ∀ (req : Request) (hm : req.method.index < kMethodCount) (r : Registration ℕ),
        invokedRoute regs ⟨req.method.index, hm⟩ req.path = some r →
        ∃ handler captured,
          (routerOf regs).dispatch req.method req.path = .invoke handler captured ∧
            (req.withParams captured).BindsOwn r.pattern req.path := by
  intro h
  obtain ⟨handler, captured, hinvoke, hbinds⟩ := h
    [.route [] kGet [.static (ascii "users"), .param (ascii "id") .none] (some 1),
      .route [] ⟨1, by decide⟩ [.static (ascii "users"), .param (ascii "name") .none] (some 2)]
    (by decide)
    { parsed := { method := ascii "POST", target := ascii "/users/7" } } (by decide)
    (.route [] ⟨1, by decide⟩ [.static (ascii "users"), .param (ascii "name") .none] (some 2)) rfl
  obtain rfl : [(ascii "id", ascii "7")] = captured := (Dispatch.invoke.inj hinvoke).2
  have hfound := hbinds (ascii "name", ascii "7") (by decide)
  revert hfound
  decide

end Aevox
