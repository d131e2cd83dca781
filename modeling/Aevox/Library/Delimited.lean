import Mathlib.Data.List.Basic
import Mathlib.Data.List.Infix
import Mathlib.Data.List.TakeWhile

/-!
# Delimited text

Two ways of cutting a list into pieces, over an arbitrary alphabet.

* *Tokens*: the non-empty maximal runs between occurrences of one delimiter. Repeated, leading and
  trailing delimiters leave no trace, so `tokens` is a monoid homomorphism across a delimiter
  (`tokens_append_cons`), which is the one fact prefix arguments about paths need.
* *Lines*: the pieces between occurrences of a two-symbol terminator, read from the front up to the
  first empty one (`headLines`). A header section is such a sequence of lines, and what
  `headLines` leaves over is whatever stands behind the blank line.

## Where a blank line can hide

A text between two terminators may itself contain terminators. `splitLines` lists the lines of
such a text, and the text is transparent to `headLines` exactly when none of them is empty:
`headLines_text` is the positive half and `exists_headLines_of_blank` the negative one.
-/

namespace Delimited

variable {α : Type*} [DecidableEq α]

/-! ## Tokens -/

/-- The non-empty maximal runs of `l` that avoid the delimiter `d`. -/
def tokens (d : α) (l : List α) : List (List α) := (l.splitOn d).filter (· ≠ [])

@[simp] theorem tokens_nil (d : α) : tokens d ([] : List α) = [] := by simp [tokens]

theorem tokens_append_cons (d : α) (l m : List α) :
    tokens d (l ++ d :: m) = tokens d l ++ tokens d m := by
  rw [tokens, List.splitOn_append_cons_self, List.filter_append]
  rfl

@[simp] theorem tokens_cons_self (d : α) (l : List α) : tokens d (d :: l) = tokens d l := by
  simpa using tokens_append_cons d [] l

theorem tokens_of_not_mem {d : α} {l : List α} (h : d ∉ l) :
    tokens d l = if l = [] then [] else [l] := by
  rw [tokens, List.splitOn_eq_singleton h]
  by_cases hl : l = [] <;> simp [hl]

/-- Taking one run off the front: the recursion a scanning loop performs. -/
theorem tokens_takeWhile (d : α) (l : List α) :
    tokens d l = (if l.takeWhile (· ≠ d) = [] then [] else [l.takeWhile (· ≠ d)])
      ++ tokens d ((l.dropWhile (· ≠ d)).drop 1) := by
  have hrun : d ∉ l.takeWhile (· ≠ d) := fun h ↦ by simpa using List.mem_takeWhile_imp h
  conv_lhs => rw [← List.takeWhile_append_dropWhile (p := (· ≠ d)) (l := l)]
  cases hrest : l.dropWhile (· ≠ d) with
  | nil => rw [List.append_nil, tokens_of_not_mem hrun]; simp
  | cons x rest =>
    have hx : x = d := by
      have hhead := List.head?_dropWhile_not (· ≠ d) l
      rw [hrest] at hhead
      simpa using hhead
    rw [hx, tokens_append_cons, tokens_of_not_mem hrun]
    rfl

theorem of_mem_tokens {d : α} {t : List α} {l : List α} (h : t ∈ tokens d l) :
    t ≠ [] ∧ d ∉ t ∧ t ⊆ l := by
  induction hn : l.length using Nat.strong_induction_on generalizing l with
  | h n ih =>
    rw [tokens_takeWhile, List.mem_append] at h
    rcases h with h | h
    · by_cases hrun : l.takeWhile (· ≠ d) = []
      · rw [if_pos hrun] at h
        cases h
      · rw [if_neg hrun, List.mem_singleton] at h
        subst h
        refine ⟨hrun, fun hmem ↦ ?_, (List.takeWhile_sublist _).subset⟩
        simpa using List.mem_takeWhile_imp hmem
    · rcases l with _ | ⟨b, l⟩
      · simp at h
      · have hsub := List.dropWhile_sublist (l := b :: l) (· ≠ d)
        have hlen := hsub.length_le
        rw [List.length_cons] at hlen hn
        obtain ⟨hne, hd, hmem⟩ := ih (((b :: l).dropWhile (· ≠ d)).drop 1).length
          (by rw [List.length_drop]; omega) h rfl
        exact ⟨hne, hd, fun x hx ↦ hsub.subset (List.mem_of_mem_drop (hmem hx))⟩

theorem tokens_intercalate {d : α} {ls : List (List α)} (h : ∀ l ∈ ls, l ≠ [] ∧ d ∉ l) :
    tokens d ([d].intercalate ls) = ls := by
  by_cases hls : ls = []
  · rw [hls, List.intercalate_nil, tokens_nil]
  · rw [tokens, List.splitOn_intercalate d (fun l hl ↦ (h l hl).2) hls, List.filter_eq_self]
    exact fun l hl ↦ decide_eq_true (h l hl).1

/-! ## Lines -/

variable (cr lf : α)

/-- The lines of `l` up to the first empty one, and what follows that empty line's terminator. The
first argument holds, in reverse, the part of the current line already read. -/
def headLines : List α → List α → Option (List (List α) × List α)
  | cur, x :: y :: l =>
    if x = cr ∧ y = lf then
      if cur = [] then some ([], l)
      else (headLines [] l).map fun p ↦ (cur.reverse :: p.1, p.2)
    else headLines (x :: cur) (y :: l)
  | _, _ => none

/-- The pieces of `l` between occurrences of the terminator. -/
def splitLines : List α → List (List α)
  | [] => [[]]
  | [x] => [[x]]
  | x :: y :: l =>
    if x = cr ∧ y = lf then [] :: splitLines l
    else (splitLines (y :: l)).modifyHead (x :: ·)

variable {cr lf}

@[simp] theorem headLines_blank (l : List α) :
    headLines cr lf [] (cr :: lf :: l) = some ([], l) := by
  rw [headLines, if_pos ⟨rfl, rfl⟩, if_pos rfl]

/-- What is behind the blank line does not matter to the lines, and `headLines` has read
something. -/
theorem headLines_append : ∀ {l cur : List α} {ls : List (List α)} {r : List α},
    headLines cr lf cur l = some (ls, r) → r.length < l.length ∧ r <:+ l ∧
      ∀ m, headLines cr lf cur (l ++ m) = some (ls, r ++ m)
  | [], _, _, _, h => absurd h (Option.some_ne_none _).symm
  | [_], _, _, _, h => absurd h (Option.some_ne_none _).symm
  | x :: y :: l, cur, ls, r, h => by
    rw [headLines] at h
    split at h
    next hxy =>
      split at h
      next hcur =>
        obtain ⟨rfl, rfl⟩ := Prod.mk.inj (Option.some.inj h)
        refine ⟨Nat.lt_succ_of_lt (Nat.lt_succ_self _), (List.suffix_cons y l).trans
          (List.suffix_cons x _), fun m ↦ ?_⟩
        rw [List.cons_append, List.cons_append, headLines, if_pos hxy, if_pos hcur]
      next hcur =>
        obtain ⟨⟨ls', r'⟩, hrest, heq⟩ := Option.map_eq_some_iff.mp h
        obtain ⟨rfl, rfl⟩ := Prod.mk.inj heq
        obtain ⟨hlen, hsuffix, happend⟩ := headLines_append hrest
        refine ⟨Nat.lt_succ_of_lt (Nat.lt_succ_of_lt hlen), (hsuffix.trans
          (List.suffix_cons y l)).trans (List.suffix_cons x _), fun m ↦ ?_⟩
        rw [List.cons_append, List.cons_append, headLines, if_pos hxy, if_neg hcur, happend]
        rfl
    next hxy =>
      obtain ⟨hlen, hsuffix, happend⟩ := headLines_append h
      refine ⟨Nat.lt_succ_of_lt hlen, hsuffix.trans (List.suffix_cons x _), fun m ↦ ?_⟩
      rw [List.cons_append, List.cons_append, headLines, if_neg hxy]
      exact happend m

theorem splitLines_ne_nil : ∀ l : List α, splitLines cr lf l ≠ []
  | [] => by simp [splitLines]
  | [_] => by simp [splitLines]
  | x :: y :: l => by
    rw [splitLines]
    split
    · simp
    · have := splitLines_ne_nil (y :: l)
      cases h : splitLines cr lf (y :: l) <;> simp_all

theorem splitLines_of_not_mem : ∀ {l : List α}, cr ∉ l → splitLines cr lf l = [l]
  | [], _ => rfl
  | [_], _ => rfl
  | x :: y :: l, h => by
    have hx : x ≠ cr := fun he ↦ h (by simp [he])
    rw [splitLines, if_neg (fun hc ↦ hx hc.1),
      splitLines_of_not_mem (l := y :: l) fun hm ↦ h (List.mem_cons_of_mem _ hm)]
    rfl

/-- The lines `headLines` still has to deliver for the text `t` once `cur` has been read. -/
private def pendingLines (cr lf : α) (cur t : List α) : List (List α) :=
  (splitLines cr lf t).modifyHead (cur.reverse ++ ·)

private theorem pendingLines_cons (cur : List α) {x y : α} {l : List α} (h : ¬(x = cr ∧ y = lf)) :
    pendingLines cr lf cur (x :: y :: l) = pendingLines cr lf (x :: cur) (y :: l) := by
  rw [pendingLines, pendingLines, splitLines, if_neg h]
  cases splitLines cr lf (y :: l) <;> simp

private theorem pendingLines_terminator (cur l : List α) :
    pendingLines cr lf cur (cr :: lf :: l) = cur.reverse :: pendingLines cr lf [] l := by
  rw [pendingLines, pendingLines, splitLines, if_pos ⟨rfl, rfl⟩]
  cases splitLines cr lf l <;> simp

private theorem headLines_pending (hne : cr ≠ lf) (r : List α) : ∀ (t cur : List α),
    [] ∉ pendingLines cr lf cur t →
      headLines cr lf cur (t ++ cr :: lf :: r)
        = (headLines cr lf [] r).map fun p ↦ (pendingLines cr lf cur t ++ p.1, p.2)
  | [], cur, h => by
    have hcur : cur ≠ [] := by rintro rfl; simp [pendingLines, splitLines] at h
    simp [headLines, hcur, pendingLines, splitLines]
  | [x], cur, h => by
    have hx : ¬(x = cr ∧ cr = lf) := fun hc ↦ hne hc.2
    rw [List.cons_append, List.nil_append, headLines, if_neg hx, headLines, if_pos ⟨rfl, rfl⟩,
      if_neg (by simp)]
    simp [pendingLines, splitLines]
  | x :: y :: l, cur, h => by
    rw [List.cons_append, List.cons_append, headLines]
    by_cases hxy : x = cr ∧ y = lf
    · obtain ⟨rfl, rfl⟩ : cr = x ∧ lf = y := ⟨hxy.1.symm, hxy.2.symm⟩
      rw [pendingLines_terminator] at h ⊢
      have hcur : cur ≠ [] := by rintro rfl; simp at h
      rw [if_pos ⟨rfl, rfl⟩, if_neg hcur,
        headLines_pending hne r l [] fun hm ↦ h (List.mem_cons_of_mem _ hm), Option.map_map]
      rfl
    · rw [pendingLines_cons cur hxy] at h ⊢
      rw [if_neg hxy]
      exact headLines_pending hne r (y :: l) (x :: cur) h

/-- **A text without empty lines is transparent**: `headLines` delivers its lines and goes on with
what follows its terminator. -/
theorem headLines_text (hne : cr ≠ lf) {t : List α} (h : [] ∉ splitLines cr lf t) (r : List α) :
    headLines cr lf [] (t ++ cr :: lf :: r)
      = (headLines cr lf [] r).map fun p ↦ (splitLines cr lf t ++ p.1, p.2) := by
  have hp : pendingLines cr lf [] t = splitLines cr lf t := by
    rw [pendingLines]
    cases splitLines cr lf t <;> simp
  rw [← hp] at h ⊢
  exact headLines_pending hne r t [] h

/-- Reading back a section written line by line: non-empty lines without the terminator's first
symbol, each one terminated, and then a blank line. -/
theorem headLines_flatMap (hne : cr ≠ lf) {ls : List (List α)} (hls : ∀ l ∈ ls, l ≠ [])
    (hcr : ∀ l ∈ ls, cr ∉ l) (r : List α) :
    headLines cr lf [] (ls.flatMap (· ++ [cr, lf]) ++ [cr, lf] ++ r) = some (ls, r) := by
  induction ls with
  | nil => simp
  | cons l ls ih =>
    have hl : splitLines cr lf l = [l] := splitLines_of_not_mem (hcr l List.mem_cons_self)
    have hblank : [] ∉ splitLines cr lf l := by
      rw [hl, List.mem_singleton]
      exact (hls l List.mem_cons_self).symm
    have htail := ih (fun m hm ↦ hls m (List.mem_cons_of_mem _ hm))
      (fun m hm ↦ hcr m (List.mem_cons_of_mem _ hm))
    have hassoc : (l :: ls).flatMap (· ++ [cr, lf]) ++ [cr, lf] ++ r
        = l ++ cr :: lf :: (ls.flatMap (· ++ [cr, lf]) ++ [cr, lf] ++ r) := by simp
    rw [hassoc, headLines_text hne hblank, htail, hl]
    rfl

private theorem exists_headLines_of_pending (hne : cr ≠ lf) (r : List α) : ∀ (t cur : List α),
    [] ∈ pendingLines cr lf cur t →
      ∃ ls s, headLines cr lf cur (t ++ cr :: lf :: r) = some (ls, s ++ r)
  | [], cur, h => by
    have hcur : cur = [] := by simpa [pendingLines, splitLines] using h
    exact ⟨[], [], by simp [hcur]⟩
  | [x], cur, h => by simp [pendingLines, splitLines] at h
  | x :: y :: l, cur, h => by
    rw [List.cons_append, List.cons_append, headLines]
    by_cases hxy : x = cr ∧ y = lf
    · obtain ⟨rfl, rfl⟩ : cr = x ∧ lf = y := ⟨hxy.1.symm, hxy.2.symm⟩
      rw [if_pos ⟨rfl, rfl⟩]
      by_cases hcur : cur = []
      · -- this is the empty line
        rw [if_pos hcur]
        exact ⟨[], l ++ [cr, lf], by simp⟩
      · rw [pendingLines_terminator] at h
        have hl : [] ∈ pendingLines cr lf [] l := by simpa [hcur] using h
        obtain ⟨ls, s, hs⟩ := exists_headLines_of_pending hne r l [] hl
        rw [if_neg hcur, hs]
        exact ⟨cur.reverse :: ls, s, rfl⟩
    · rw [pendingLines_cons cur hxy] at h
      rw [if_neg hxy]
      exact exists_headLines_of_pending hne r (y :: l) (x :: cur) h

/-- A text with an empty line ends the section early: all of what follows the text is left over. -/
theorem exists_headLines_of_blank (hne : cr ≠ lf) {t : List α} (h : [] ∈ splitLines cr lf t)
    (r : List α) : ∃ ls s, headLines cr lf [] (t ++ cr :: lf :: r) = some (ls, s ++ r) := by
  refine exists_headLines_of_pending hne r t [] ?_
  rw [pendingLines]
  cases hs : splitLines cr lf t with
  | nil => exact absurd hs (splitLines_ne_nil t)
  | cons a as => simpa [hs] using h

/-- The section written for texts, each one terminated, ends right behind its blank line exactly
when nothing follows that line and none of the texts contains an empty line itself. -/
theorem headLines_texts_iff (hne : cr ≠ lf) (rest : List α) {ts : List (List α)} :
    (∃ ls, headLines cr lf [] (ts.flatMap (· ++ [cr, lf]) ++ [cr, lf] ++ rest) = some (ls, []))
      ↔ rest = [] ∧ ∀ t ∈ ts, [] ∉ splitLines cr lf t := by
  induction ts with
  | nil => simp
  | cons t ts ih =>
    have hassoc : (t :: ts).flatMap (· ++ [cr, lf]) ++ [cr, lf] ++ rest
        = t ++ cr :: lf :: (ts.flatMap (· ++ [cr, lf]) ++ [cr, lf] ++ rest) := by simp
    rw [hassoc, List.forall_mem_cons]
    by_cases hblank : [] ∈ splitLines cr lf t
    · obtain ⟨ls, s, hs⟩ := exists_headLines_of_blank hne hblank
        (ts.flatMap (· ++ [cr, lf]) ++ [cr, lf] ++ rest)
      refine iff_of_false ?_ fun h ↦ h.2.1 hblank
      rintro ⟨ls', hls'⟩
      rw [hs] at hls'
      simp at hls'
    · rw [headLines_text hne hblank]
      constructor
      · rintro ⟨ls, hls⟩
        obtain ⟨⟨ls', rest'⟩, htail, heq⟩ := Option.map_eq_some_iff.mp hls
        obtain rfl : rest' = [] := (Prod.mk.inj heq).2
        obtain ⟨hrest, hts⟩ := ih.mp ⟨ls', htail⟩
        exact ⟨hrest, hblank, hts⟩
      · rintro ⟨hrest, -, hts⟩
        obtain ⟨ls, hls⟩ := ih.mpr ⟨hrest, hts⟩
        exact ⟨_, congrArg (Option.map _) hls⟩

end Delimited
