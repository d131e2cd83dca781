import Mathlib.Data.List.Basic
import Mathlib.Data.List.Infix

/-!
# File trees with symbolic links

A file tree maps the places of a hierarchy to what stands there. Names can be anything; a place is
the list of names that lead to it from the root without passing a link. A pathname is a list of
elements, each a name, the directory itself or its parent, and is walked element by element: every
directory on the way must be searchable, and at a link the walk goes on with the link's target in
front of what is left, as long as there are links left to follow.

Where a walk ends is the canonical place of the pathname. It is `Accessible`: everything above it is
a searchable directory and nothing on the way is a link. Walking an accessible place leads to it and
needs no links (`walk_of_accessible`), so a canonical place is its own canonical place. A walk can
be cut in two (`walk_append`), an element that fails makes whatever continues it fail in the same
way (`walk_append_of_error`), and more links never change the outcome of a walk that had enough
(`walk_mono`).
-/

namespace FileTree

/-- Why a pathname leads nowhere. -/
inductive Errno where
  | notFound
  | notDirectory
  | accessDenied
  | tooManyLinks
  /-- The operation is not for this kind of file. -/
  | notSupported
  deriving DecidableEq

/-- An element of a pathname. -/
inductive Element (N : Type*) where
  | current
  | parent
  | name (n : N)
  deriving DecidableEq

/-- What stands at a place. -/
inductive Entry (N C : Type*) where
  | directory (searchable : Bool)
  | file (contents : C) (readable : Bool)
  | link (absolute : Bool) (target : List (Element N))
  | other

/-- There is a link. -/
def Entry.isLink {N C : Type*} : Entry N C → Bool
  | .link _ _ => true
  | _ => false

end FileTree

open FileTree

/-- A file system at one moment. -/
structure FileTree (N C : Type*) where
  entry : List N → Option (Entry N C)
  /-- The root is a directory. -/
  root : ∃ searchable, entry [] = some (.directory searchable)
  /-- Everything else stands in a directory. -/
  parent : ∀ p n, entry (p ++ [n]) ≠ none → ∃ searchable, entry p = some (.directory searchable)

namespace FileTree

variable {N C : Type*} (fs : FileTree N C)

/-- Whether the names in a directory can be looked up. -/
def search (here : List N) : Except Errno Unit :=
  match fs.entry here with
  | some (.directory true) => .ok ()
  | some (.directory false) => .error .accessDenied
  | _ => .error .notDirectory

/-- Walks a pathname from `here`; at a link it hands over to `follow`. -/
def walkWith (follow : List N → List (Element N) → Except Errno (List N)) (here : List N) :
    List (Element N) → Except Errno (List N)
  | [] => .ok here
  | .current :: rest => (fs.search here).bind fun _ ↦ walkWith follow here rest
  | .parent :: rest => (fs.search here).bind fun _ ↦ walkWith follow here.dropLast rest
  | .name n :: rest => (fs.search here).bind fun _ ↦
    match fs.entry (here ++ [n]) with
    | none => .error .notFound
    | some (.link absolute target) => follow (if absolute then [] else here) (target ++ rest)
    | some _ => walkWith follow (here ++ [n]) rest

/-- Walks a pathname from `here` and follows at most `links` links. -/
def walk : ℕ → List N → List (Element N) → Except Errno (List N)
  | 0 => fs.walkWith fun _ _ ↦ .error .tooManyLinks
  | links + 1 => fs.walkWith (walk links)

/-- Everything above the place is a searchable directory, and something stands at the place that is
not a link. -/
structure Accessible (p : List N) : Prop where
  above : ∀ q n, q ++ [n] <+: p → fs.entry q = some (.directory true)
  here : ∃ e, fs.entry p = some e ∧ e.isLink = false

/-- There are no links. -/
def LinkFree : Prop := ∀ p e, fs.entry p = some e → e.isLink = false

variable {fs}

/-! ## Accessible places -/

theorem accessible_nil : fs.Accessible [] := by
  obtain ⟨searchable, hroot⟩ := fs.root
  refine ⟨fun q n h ↦ ?_, .directory searchable, hroot, rfl⟩
  exact absurd (List.prefix_nil.mp h) (List.append_ne_nil_of_right_ne_nil q (List.cons_ne_nil n []))

theorem Accessible.mono {p q : List N} (hp : fs.Accessible p) (h : q <+: p) :
    fs.Accessible q := by
  obtain ⟨rest, rfl⟩ := h
  cases rest with
  | nil => rwa [List.append_nil] at hp
  | cons n rest =>
    have hnext : q ++ [n] <+: q ++ n :: rest :=
      ⟨rest, by rw [List.append_assoc, List.singleton_append]⟩
    refine ⟨fun q' n' h ↦ ?_, .directory true, hp.above q n hnext, rfl⟩
    exact hp.above q' n' (h.trans (List.prefix_append q _))

theorem Accessible.append {p : List N} {n : N} {e : Entry N C} (hp : fs.Accessible p)
    (hdirectory : fs.entry p = some (.directory true)) (he : fs.entry (p ++ [n]) = some e)
    (hlink : e.isLink = false) : fs.Accessible (p ++ [n]) := by
  refine ⟨fun q n' h ↦ ?_, e, he, hlink⟩
  rcases List.prefix_concat_iff.mp h with h | h
  · obtain ⟨rfl, -⟩ := List.append_inj' h rfl
    exact hdirectory
  · exact hp.above q n' h

/-! ## One element -/

theorem search_of_directory {here : List N} (h : fs.entry here = some (.directory true)) :
    fs.search here = .ok () := by
  rw [search, h]

theorem directory_of_search {here : List N} (h : fs.search here = .ok ()) :
    fs.entry here = some (.directory true) := by
  rw [search] at h
  split at h
  · assumption
  · cases h
  · cases h

theorem search_ne_tooManyLinks (here : List N) : fs.search here ≠ .error .tooManyLinks := by
  rw [search]
  split <;> simp

section Element

variable {follow : List N → List (Element N) → Except Errno (List N)} {here : List N} {n : N}

theorem walkWith_name {e : Entry N C} (hdirectory : fs.entry here = some (.directory true))
    (he : fs.entry (here ++ [n]) = some e) (hlink : e.isLink = false) (rest : List (Element N)) :
    fs.walkWith follow here (.name n :: rest) = fs.walkWith follow (here ++ [n]) rest := by
  rw [walkWith, search_of_directory hdirectory, he]
  cases e with
  | link absolute target => exact absurd hlink (by simp [Entry.isLink])
  | directory _ | file _ _ | other => rfl

theorem walkWith_link {absolute : Bool} {target : List (Element N)}
    (hdirectory : fs.entry here = some (.directory true))
    (he : fs.entry (here ++ [n]) = some (.link absolute target)) (rest : List (Element N)) :
    fs.walkWith follow here (.name n :: rest) =
      follow (if absolute then [] else here) (target ++ rest) := by
  rw [walkWith, search_of_directory hdirectory, he]
  rfl

theorem walkWith_none (hdirectory : fs.entry here = some (.directory true))
    (he : fs.entry (here ++ [n]) = none) (rest : List (Element N)) :
    fs.walkWith follow here (.name n :: rest) = .error .notFound := by
  rw [walkWith, search_of_directory hdirectory, he]
  rfl

theorem walkWith_cons (here : List N) (e : Element N) :
    (∃ error, error ≠ .tooManyLinks ∧
        ∀ rest follow, fs.walkWith follow here (e :: rest) = .error error) ∨
      (∃ next, (fs.Accessible here → fs.Accessible next) ∧
        ∀ rest follow, fs.walkWith follow here (e :: rest) = fs.walkWith follow next rest) ∨
      ∃ start target, (fs.Accessible here → fs.Accessible start) ∧
        ∀ rest follow, fs.walkWith follow here (e :: rest) = follow start (target ++ rest) := by
  cases hsearch : fs.search here with
  | error error =>
    refine .inl ⟨error, fun h ↦ search_ne_tooManyLinks here (h ▸ hsearch), fun rest follow ↦ ?_⟩
    cases e with
    | current | parent | name n => rw [walkWith, hsearch]; rfl
  | ok u =>
    have hdirectory := directory_of_search hsearch
    cases e with
    | current => exact .inr (.inl ⟨here, id, fun rest follow ↦ by rw [walkWith, hsearch]; rfl⟩)
    | parent =>
      refine .inr (.inl ⟨here.dropLast, fun h ↦ h.mono (List.dropLast_prefix here), ?_⟩)
      exact fun rest follow ↦ by rw [walkWith, hsearch]; rfl
    | name n =>
      cases he : fs.entry (here ++ [n]) with
      | none => exact .inl ⟨.notFound, by decide, fun rest _ ↦ walkWith_none hdirectory he rest⟩
      | some e =>
        cases hlink : e.isLink with
        | false =>
          exact .inr (.inl ⟨here ++ [n], fun h ↦ h.append hdirectory he hlink,
            fun rest _ ↦ walkWith_name hdirectory he hlink rest⟩)
        | true =>
          cases e with
          | link absolute target =>
            refine .inr (.inr ⟨if absolute then [] else here, target, fun h ↦ ?_,
              fun rest _ ↦ walkWith_link hdirectory he rest⟩)
            split
            · exact accessible_nil
            · exact h
          | directory _ | file _ _ | other => exact absurd hlink (by simp [Entry.isLink])

end Element

/-! ## Walks -/

/-- Every element of a walk fails, leads on, or is a link to be followed. -/
theorem walk_cons (here : List N) (e : Element N) :
    (∃ error, error ≠ .tooManyLinks ∧ ∀ links rest, fs.walk links here (e :: rest) = .error error) ∨
      (∃ next, (fs.Accessible here → fs.Accessible next) ∧
        ∀ links rest, fs.walk links here (e :: rest) = fs.walk links next rest) ∨
      ∃ start target, (fs.Accessible here → fs.Accessible start) ∧
        (∀ rest, fs.walk 0 here (e :: rest) = .error .tooManyLinks) ∧
        ∀ links rest,
          fs.walk (links + 1) here (e :: rest) = fs.walk links start (target ++ rest) := by
  rcases fs.walkWith_cons here e with ⟨error, herror, h⟩ | ⟨next, hnext, h⟩ | ⟨start, target, hs, h⟩
  · refine .inl ⟨error, herror, fun links rest ↦ ?_⟩
    cases links <;> exact h rest _
  · refine .inr (.inl ⟨next, hnext, fun links rest ↦ ?_⟩)
    cases links <;> exact h rest _
  · exact .inr (.inr ⟨start, target, hs, fun rest ↦ h rest _, fun links rest ↦ h rest _⟩)

@[simp] theorem walk_nil (links : ℕ) (here : List N) : fs.walk links here [] = .ok here := by
  cases links <;> rfl

/-- **Induction along a walk.** -/
@[elab_as_elim]
theorem walk_induction (fs : FileTree N C) {P : ℕ → List N → List (Element N) → Prop}
    (nil : ∀ links here, P links here [])
    (fails : ∀ links here e rest error, error ≠ .tooManyLinks →
      (∀ links rest, fs.walk links here (e :: rest) = .error error) → P links here (e :: rest))
    (leads : ∀ links here e rest next, (fs.Accessible here → fs.Accessible next) →
      (∀ links rest, fs.walk links here (e :: rest) = fs.walk links next rest) →
      P links next rest → P links here (e :: rest))
    (spent : ∀ here e rest, (∀ rest, fs.walk 0 here (e :: rest) = .error .tooManyLinks) →
      P 0 here (e :: rest))
    (follows : ∀ links here e rest start target, (fs.Accessible here → fs.Accessible start) →
      (∀ links rest, fs.walk (links + 1) here (e :: rest) = fs.walk links start (target ++ rest)) →
      P links start (target ++ rest) → P (links + 1) here (e :: rest))
    (links : ℕ) (here : List N) (es : List (Element N)) : P links here es := by
  -- a link makes the pathname longer, so the outer induction is on the links that are left
  induction links generalizing here es with
  | zero =>
    induction es generalizing here with
    | nil => exact nil 0 here
    | cons e rest ih =>
      rcases fs.walk_cons here e with ⟨error, herror, h⟩ | ⟨next, hnext, h⟩ | ⟨_, _, -, h, -⟩
      · exact fails 0 here e rest error herror h
      · exact leads 0 here e rest next hnext h (ih next)
      · exact spent here e rest h
  | succ links ihlinks =>
    induction es generalizing here with
    | nil => exact nil _ here
    | cons e rest ih =>
      rcases fs.walk_cons here e with
        ⟨error, herror, h⟩ | ⟨next, hnext, h⟩ | ⟨start, target, hs, -, h⟩
      · exact fails _ here e rest error herror h
      · exact leads _ here e rest next hnext h (ih next)
      · exact follows links here e rest start target hs h (ihlinks start (target ++ rest))

variable {links : ℕ} {here q : List N} {es : List (Element N)} {error : Errno}

theorem accessible_of_walk (hhere : fs.Accessible here) (hq : fs.walk links here es = .ok q) :
    fs.Accessible q := by
  induction links, here, es using fs.walk_induction with
  | nil links here =>
    rw [walk_nil] at hq
    exact Except.ok.inj hq ▸ hhere
  | fails links here e rest error _ h => cases (h links rest).symm.trans hq
  | leads links here e rest next hnext h ih =>
    exact ih (hnext hhere) ((h links rest).symm.trans hq)
  | spent here e rest h => cases (h rest).symm.trans hq
  | follows links here e rest start target hstart h ih =>
    exact ih (hstart hhere) ((h links rest).symm.trans hq)

theorem walk_append_of_error (herror : fs.walk links here es = .error error)
    (es' : List (Element N)) : fs.walk links here (es ++ es') = .error error := by
  induction links, here, es using fs.walk_induction with
  | nil links here =>
    rw [walk_nil] at herror
    cases herror
  | fails links here e rest _ _ h => rw [List.cons_append, h links, ← h links rest, herror]
  | leads links here e rest next _ h ih =>
    rw [List.cons_append, h links]
    exact ih ((h links rest).symm.trans herror)
  | spent here e rest h => rw [List.cons_append, h, ← h rest, herror]
  | follows links here e rest start target _ h ih =>
    rw [List.cons_append, h links, ← List.append_assoc]
    exact ih ((h links rest).symm.trans herror)

/-- A walk goes on where its first part has ended, with the links that are left. -/
theorem walk_append (hq : fs.walk links here es = .ok q) :
    ∃ left ≤ links, ∀ es', fs.walk links here (es ++ es') = fs.walk left q es' := by
  induction links, here, es using fs.walk_induction with
  | nil links here =>
    rw [walk_nil] at hq
    obtain rfl := Except.ok.inj hq
    exact ⟨links, le_refl links, fun es' ↦ rfl⟩
  | fails links here e rest _ _ h => cases (h links rest).symm.trans hq
  | leads links here e rest next _ h ih =>
    obtain ⟨left, hleft, hwalk⟩ := ih ((h links rest).symm.trans hq)
    exact ⟨left, hleft, fun es' ↦ by rw [List.cons_append, h links, hwalk]⟩
  | spent here e rest h => cases (h rest).symm.trans hq
  | follows links here e rest start target _ h ih =>
    obtain ⟨left, hleft, hwalk⟩ := ih ((h links rest).symm.trans hq)
    refine ⟨left, hleft.trans (Nat.le_succ links), fun es' ↦ ?_⟩
    rw [List.cons_append, h links, ← List.append_assoc, hwalk]

/-- More links change nothing if there were enough. -/
theorem walk_mono {links' : ℕ} (hle : links ≤ links')
    (hne : fs.walk links here es ≠ .error .tooManyLinks) :
    fs.walk links' here es = fs.walk links here es := by
  induction links, here, es using fs.walk_induction generalizing links' with
  | nil links here => rw [walk_nil, walk_nil]
  | fails links here e rest _ _ h => rw [h, h]
  | leads links here e rest next _ h ih =>
    rw [h, h]
    exact ih hle (h links rest ▸ hne)
  | spent here e rest h => exact absurd (h rest) hne
  | follows links here e rest start target _ h ih =>
    -- one link less on both sides
    obtain ⟨links', rfl⟩ : ∃ k, links' = k + 1 := ⟨links' - 1, by omega⟩
    rw [h, h]
    exact ih (Nat.le_of_succ_le_succ hle) (h links rest ▸ hne)

theorem walk_names (links : ℕ) (ns : List N) : ∀ {p : List N}, fs.Accessible (p ++ ns) →
    ∀ es, fs.walk links p (ns.map .name ++ es) = fs.walk links (p ++ ns) es := by
  induction ns with
  | nil =>
    intro p _ es
    rw [List.append_nil]
    rfl
  | cons n ns ih =>
    intro p hp es
    have hassoc : p ++ n :: ns = (p ++ [n]) ++ ns := List.append_cons p n ns
    have hbelow : p ++ [n] <+: p ++ n :: ns := hassoc ▸ List.prefix_append _ _
    obtain ⟨e, he, hlink⟩ := (hp.mono hbelow).here
    have hdirectory := hp.above p n hbelow
    rw [hassoc] at hp ⊢
    rw [← ih hp]
    cases links <;> exact walkWith_name hdirectory he hlink _

/-- **A canonical place is its own canonical place.** -/
theorem walk_of_accessible (hq : fs.Accessible q) (links : ℕ) :
    fs.walk links [] (q.map .name) = .ok q := by
  have hwalk := walk_names links q (p := []) hq []
  rwa [List.append_nil, walk_nil, List.nil_append] at hwalk

theorem eq_of_walk_names (hfree : fs.LinkFree) (links : ℕ) (ns : List N) : ∀ {p q : List N},
    fs.walk links p (ns.map .name) = .ok q → q = p ++ ns := by
  induction ns with
  | nil =>
    intro p q h
    rw [List.map_nil, walk_nil] at h
    rw [List.append_nil, Except.ok.inj h]
  | cons n ns ih =>
    intro p q h
    rw [List.map_cons] at h
    cases hsearch : fs.search p with
    | error error =>
      cases links <;> rw [walk, walkWith, hsearch] at h <;> cases h
    | ok u =>
      have hdirectory := directory_of_search hsearch
      cases he : fs.entry (p ++ [n]) with
      | none => cases links <;> rw [walk, walkWith_none hdirectory he] at h <;> cases h
      | some e =>
        have hnext : fs.walk links (p ++ [n]) (ns.map .name) = .ok q := by
          cases links <;> exact (walkWith_name hdirectory he (hfree _ e he) _).symm.trans h
        rw [ih hnext, List.append_assoc, List.singleton_append]

/-- An element that fails behind a pathname fails behind its canonical place, and so does whatever
continues it there. -/
theorem walk_canonical_of_error {e : Element N} (hq : fs.walk links [] es = .ok q)
    (herror : fs.walk links [] (es ++ [e]) = .error error) (hne : error ≠ .tooManyLinks)
    (rest : List (Element N)) :
    fs.walk links [] (q.map .name ++ e :: rest) = .error error := by
  obtain ⟨left, hleft, hwalk⟩ := walk_append hq
  have hlast : fs.walk left q [e] = .error error := (hwalk [e]).symm.trans herror
  -- from the canonical place no link has been followed yet
  have hall : fs.walk links q [e] = .error error :=
    (walk_mono hleft (by rw [hlast]; exact fun h ↦ hne (Except.error.inj h))).trans hlast
  have hq' : fs.Accessible q := accessible_of_walk accessible_nil hq
  rw [walk_names links q (p := []) hq']
  exact walk_append_of_error hall rest

end FileTree
