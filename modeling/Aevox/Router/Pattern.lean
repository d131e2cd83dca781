import Aevox.Bytes
import Aevox.Library.Delimited

/-!
# Route patterns and request paths

A pattern is parsed once, at registration, into segments; a malformed pattern terminates the
program, which is `none` here. A path is cut into segments at every dispatch. The two cut at the
same character and both drop empty pieces, but only the path keeps, with each segment, the text from
there to its end: a wildcard captures that text as it stands.
-/

namespace Aevox

open Delimited

/-! ## Patterns -/

/-- `ParamType` -/
inductive ParamType where
  | none
  | int
  | uint
  | float
  | double
  | string
  deriving DecidableEq, Repr

/-- `Segment`: each kind with the data it carries. -/
inductive Segment where
  | static (literal : Bytes)
  | param (name : Bytes) (paramType : ParamType)
  | wildcard (name : Bytes)
  deriving DecidableEq

/-- The type named by the suffix of `{name:type}`. -/
def parseParamType (text : Bytes) : Option ParamType :=
  if text = ascii "int" then some .int
  else if text = ascii "uint" then some .uint
  else if text = ascii "float" then some .float
  else if text = ascii "double" then some .double
  else if text = ascii "string" then some .string
  else none

/-- The text between the braces of a parameter token. -/
def parseBraced (inner : Bytes) : Option Segment :=
  if ascii "..." <:+ inner then
    let name := inner.take (inner.length - 3)
    if name = [] then none else some (.wildcard name)
  else
    let name := inner.takeWhile (· ≠ 58)
    match inner.dropWhile (· ≠ 58) with
    | [] => if name = [] then none else some (.param name .none)
    | _ :: type => do
      let paramType ← parseParamType type
      if name = [] then none else some (.param name paramType)

/-- One non-empty token: 123 and 125 are the braces. -/
def parseToken (tok : Bytes) : Option Segment :=
  if 2 ≤ tok.length ∧ tok.head? = some 123 ∧ tok.getLast? = some 125 then
    parseBraced (tok.drop 1).dropLast
  else if 123 ∈ tok ∨ 125 ∈ tok then none
  else some (.static tok)

/-- The tokens of a pattern from left to right; nothing may follow a wildcard. -/
def parseTokens (hadWildcard : Bool) : List Bytes → Option (List Segment)
  | [] => some []
  | [] :: toks => parseTokens hadWildcard toks
  | tok :: toks =>
    if hadWildcard then none
    else do
      let seg ← parseToken tok
      let isWildcard := match seg with
        | .wildcard _ => true
        | _ => false
      let segs ← parseTokens isWildcard toks
      some (seg :: segs)

/-- `parse_pattern` -/
def parsePattern : Bytes → Option (List Segment)
  | [] => none
  | b :: rest => if b = slash then parseTokens false (rest.splitOn slash) else none

/-! ## Shapes -/

/-- A segment with its name and type erased. -/
inductive Label where
  | static (literal : Bytes)
  | param
  | wildcard
  deriving DecidableEq

/-- The label of a segment. -/
def Segment.label : Segment → Label
  | .static literal => .static literal
  | .param _ _ => .param
  | .wildcard _ => .wildcard

/-- The shape of a pattern. -/
def shape (segs : List Segment) : List Label := segs.map Segment.label

@[simp] theorem shape_nil : shape [] = [] := rfl

@[simp] theorem shape_cons (seg : Segment) (segs : List Segment) :
    shape (seg :: segs) = seg.label :: shape segs := rfl

/-- A pattern matches the segments of a path one by one; a wildcard at the end matches whatever is
left, also nothing. -/
def MatchesPath : List Label → List Bytes → Prop
  | [], [] => True
  | [.wildcard], _ => True
  | .static s :: ls, t :: ts => t = s ∧ MatchesPath ls ts
  | .param :: ls, _ :: ts => MatchesPath ls ts
  | _, _ => False

theorem matchesPath_wildcard_iff {ls : List Label} {ts : List Bytes} :
    MatchesPath (.wildcard :: ls) ts ↔ ls = [] := by
  rcases ls with _ | ⟨l, ls⟩
  · cases ts <;> simp [MatchesPath]
  · simp [MatchesPath]

theorem matchesPath_induction {motive : ∀ ls ts, MatchesPath ls ts → Prop}
    (nil : motive [] [] trivial)
    (static : ∀ s ls ts (h : MatchesPath ls ts), motive ls ts h →
      motive (.static s :: ls) (s :: ts) ⟨rfl, h⟩)
    (param : ∀ t ls ts (h : MatchesPath ls ts), motive ls ts h → motive (.param :: ls) (t :: ts) h)
    (wildcard : ∀ ts, motive [.wildcard] ts (matchesPath_wildcard_iff.mpr rfl))
    {ls : List Label} {ts : List Bytes} (h : MatchesPath ls ts) : motive ls ts h := by
  induction ls generalizing ts with
  | nil =>
    cases ts with
    | nil => exact nil
    | cons t ts => exact h.elim
  | cons l ls ih =>
    cases l with
    | wildcard =>
      obtain rfl := matchesPath_wildcard_iff.mp h
      exact wildcard ts
    | static s =>
      cases ts with
      | nil => exact h.elim
      | cons t ts =>
        obtain ⟨rfl, h⟩ := h
        exact static t ls ts h (ih h)
    | param =>
      cases ts with
      | nil => exact h.elim
      | cons t ts => exact param t ls ts h (ih h)

/-! ## Paths -/

/-- The loop of `dispatch` that splits the path, from the current position on: every segment with
the text that begins there. -/
def splitFrom : ℕ → Bytes → List (Bytes × Bytes)
  | 0, _ => []
  | _ + 1, [] => []
  | fuel + 1, b :: text =>
    let seg := (b :: text).takeWhile (· ≠ slash)
    -- an empty segment is skipped, not stored
    if seg = [] then splitFrom fuel text
    else (seg, b :: text) :: splitFrom fuel ((b :: text).drop (seg.length + 1))

/-- The segments of a path, each with the rest of the path from its first byte on. -/
def splitPath (path : Bytes) : List (Bytes × Bytes) :=
  splitFrom path.length (if path.head? = some slash then path.drop 1 else path)

/-- The segments of a path. -/
def segments (path : Bytes) : List Bytes := (splitPath path).map Prod.fst

theorem drop_length_takeWhile (p : UInt8 → Bool) (text : Bytes) :
    text.drop (text.takeWhile p).length = text.dropWhile p := by
  calc text.drop (text.takeWhile p).length
      = (text.takeWhile p ++ text.dropWhile p).drop (text.takeWhile p).length := by
        rw [List.takeWhile_append_dropWhile]
    _ = text.dropWhile p := List.drop_left

/-- The loop finds the tokens of the text, as long as it has a step for each byte. -/
theorem splitFrom_tokens {fuel : ℕ} : ∀ {text : Bytes}, text.length ≤ fuel →
    (splitFrom fuel text).map Prod.fst = tokens slash text := by
  induction fuel with
  | zero =>
    intro text h
    rw [List.eq_nil_of_length_eq_zero (Nat.le_zero.mp h), tokens_nil]
    rfl
  | succ fuel ih =>
    intro text h
    rcases text with _ | ⟨b, text⟩
    · rw [tokens_nil]
      rfl
    · rw [List.length_cons] at h
      rw [splitFrom, tokens_takeWhile]
      by_cases hseg : (b :: text).takeWhile (· ≠ slash) = []
      · have hb : (b :: text).dropWhile (· ≠ slash) = b :: text := by
          rw [← drop_length_takeWhile, hseg]
          rfl
        simp only [hseg, if_true, hb, List.nil_append, List.drop_one, List.tail_cons]
        exact ih (by omega)
      · have hdrop : (b :: text).drop (((b :: text).takeWhile (· ≠ slash)).length + 1)
            = ((b :: text).dropWhile (· ≠ slash)).drop 1 := by
          rw [← drop_length_takeWhile, List.drop_drop]
        simp only [hseg, if_false, List.map_cons, List.singleton_append, List.cons.injEq, true_and]
        rw [hdrop]
        apply ih
        rw [← hdrop, List.length_drop, List.length_cons]
        omega

/-- **The router's segmentation**: the segments of a path are its tokens. -/
theorem segments_eq_tokens (path : Bytes) : segments path = tokens slash path := by
  rw [segments, splitPath]
  rcases path with _ | ⟨b, path⟩
  · rw [tokens_nil]
    rfl
  · by_cases hb : b = slash
    · subst hb
      rw [List.head?_cons, if_pos rfl, splitFrom_tokens (by simp), List.drop_one, List.tail_cons,
        tokens_cons_self]
    · rw [List.head?_cons, if_neg (by simpa using hb), splitFrom_tokens (le_refl _)]

end Aevox
