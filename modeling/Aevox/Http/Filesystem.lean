import Aevox.Bytes
import Aevox.Library.Delimited
import Aevox.Library.FileTree

/-!
# The file system

What the server uses of `std::filesystem`, on a POSIX system: a `path` is a list of elements, and
the kernel walks it with at most `kMaxLinks` symbolic links. The tree is the file system at one
moment; what the process may look up and read is part of it.

`weakly_canonical` resolves the longest leading part of a path that exists and puts the rest behind
it as it is. If nothing in the rest is `..`, there is no way back: a file that is found under the
result is the one its canonical path leads to (`canonical_of_weaklyCanonical`).
-/

namespace Aevox

open FileTree Delimited

/-! ## Names and paths -/

/-- What a directory can have an entry for. -/
structure FileName where
  bytes : Bytes
  ne_nil : bytes ≠ []
  slash_not_mem : slash ∉ bytes
  nul_not_mem : 0 ∉ bytes
  ne_current : bytes ≠ ascii "."
  ne_parent : bytes ≠ ascii ".."
  deriving DecidableEq

abbrev Filesystem : Type := FileTree FileName Bytes

/-- The elements of an absolute `std::filesystem::path` after its root directory; a trailing slash
is the element `current`. -/
abbrev Path : Type := List (Element FileName)

/-- What stands between two slashes, unless it is empty. -/
def elementOf (piece : Bytes) : Option (Element FileName) :=
  if hcurrent : piece = ascii "." then some .current
  else if hparent : piece = ascii ".." then some .parent
  else if h : piece ≠ [] ∧ slash ∉ piece ∧ 0 ∉ piece then
    some (.name ⟨piece, h.1, h.2.1, h.2.2, hcurrent, hparent⟩)
  else none

/-- The elements of a pathname, which ends at its first NUL. -/
def pathElements (pathname : Bytes) : Path :=
  let text := pathname.takeWhile (· ≠ 0)
  (text.splitOn slash).filterMap elementOf ++
    if text.getLast? = some slash then [.current] else []

theorem elementOf_bytes (n : FileName) : elementOf n.bytes = some (.name n) := by
  rw [elementOf, dif_neg n.ne_current, dif_neg n.ne_parent,
    dif_pos ⟨n.ne_nil, n.slash_not_mem, n.nul_not_mem⟩]

theorem pathElements_bytes (n : FileName) : pathElements n.bytes = [.name n] := by
  have htext : n.bytes.takeWhile (· ≠ 0) = n.bytes :=
    List.takeWhile_eq_self_iff.mpr fun b hb ↦ by
      rw [decide_eq_true_eq]
      rintro rfl
      exact n.nul_not_mem hb
  have hlast : n.bytes.getLast? ≠ some slash := fun h ↦
    n.slash_not_mem (List.mem_of_getLast? h)
  rw [pathElements, htext, List.splitOn_eq_singleton n.slash_not_mem, if_neg hlast]
  rw [List.filterMap_cons, elementOf_bytes, List.filterMap_nil, List.append_nil]

/-! ## Status -/

/-- How many symbolic links the kernel follows for one pathname. -/
abbrev kMaxLinks : ℕ := 40

namespace Filesystem

variable (fs : Filesystem)

/-- The walk of a path from the root. -/
def resolve (p : Path) : Except Errno (List FileName) := fs.walk kMaxLinks [] p

/-- `status(p, ec)`: without an entry if the type is `not_found`, an error if the status is not
known. -/
def status (p : Path) : Except Errno (Option (Entry FileName Bytes)) :=
  match fs.resolve p with
  | .ok place => .ok (fs.entry place)
  | .error .notFound => .ok none
  | .error .notDirectory => .ok none
  | .error e => .error e

/-- `is_directory(p, ec)` -/
def isDirectory (p : Path) : Except Errno Bool :=
  (fs.status p).map fun
    | some (.directory _) => true
    | _ => false

/-- `is_regular_file(p, ec)` -/
def isRegularFile (p : Path) : Except Errno Bool :=
  (fs.status p).map fun
    | some (.file _ _) => true
    | _ => false

/-- `file_size(p, ec)` -/
def fileSize (p : Path) : Except Errno ℕ :=
  (fs.resolve p).bind fun place ↦
    match fs.entry place with
    | some (.file contents _) => .ok contents.length
    | _ => .error .notSupported

/-- The bytes behind an `ifstream` on a regular file, if it can be opened. -/
def openFile (p : Path) : Option Bytes :=
  match fs.resolve p with
  | .ok place =>
    match fs.entry place with
    | some (.file contents true) => some contents
    | _ => none
  | .error _ => none

/-! ## Canonical paths -/

/-- `canonical(p, ec)` -/
def canonical (p : Path) : Except Errno Path := (fs.resolve p).map (·.map .name)

/-- `lexically_normal()` -/
def lexicallyNormal (p : Path) : Path :=
  p.foldl (fun (normal : Path) e ↦
    match e with
    | .current => normal
    | .parent => normal.dropLast
    | .name _ => normal ++ [e]) []

/-- The leading elements of a path that exist, behind those already found, and the others. -/
def existingPart (result : Path) : Path → Except Errno (Path × Path)
  | [] => .ok (result, [])
  | e :: rest =>
    match fs.status (result ++ [e]) with
    | .ok (some _) => existingPart (result ++ [e]) rest
    | .ok none => .ok (result, e :: rest)
    | .error error => .error error

/-- `weakly_canonical(p, ec)` -/
def weaklyCanonical (p : Path) : Except Errno Path :=
  match fs.status p with
  | .ok (some _) => fs.canonical p
  | .ok none => do
    let (existing, rest) ← fs.existingPart [] p
    let result ← fs.canonical existing
    .ok (lexicallyNormal (result ++ rest))
  | .error error => .error error

variable {fs}

/-- Something exists under a path that can be walked, and a path under which something exists can
be walked. -/
theorem status_eq_some_iff {p : Path} {e : Entry FileName Bytes} :
    fs.status p = .ok (some e) ↔ ∃ place, fs.resolve p = .ok place ∧ fs.entry place = some e := by
  rw [status]
  split
  · rename_i place h
    exact ⟨fun he ↦ ⟨place, h, Except.ok.inj he⟩, fun ⟨place', h', he⟩ ↦ by
      rw [Except.ok.inj (h.symm.trans h'), he]⟩
  all_goals
    rename_i h
    refine ⟨fun he ↦ ?_, fun ⟨place, hplace, _⟩ ↦ ?_⟩
    · cases he
    · cases h.symm.trans hplace

theorem exists_entry {p : Path} {place : List FileName} (h : fs.resolve p = .ok place) :
    ∃ e, fs.entry place = some e := by
  obtain ⟨e, he, -⟩ := (accessible_of_walk accessible_nil h).here
  exact ⟨e, he⟩

theorem isDirectory_eq_true_iff {p : Path} : fs.isDirectory p = .ok true ↔
    ∃ searchable, fs.status p = .ok (some (.directory searchable)) := by
  rw [isDirectory]
  rcases fs.status p with error | _ | ⟨searchable⟩ | ⟨contents, readable⟩ | ⟨absolute, target⟩ | _
  all_goals simp [Except.map]

theorem isRegularFile_eq_true_iff {p : Path} : fs.isRegularFile p = .ok true ↔
    ∃ contents readable, fs.status p = .ok (some (.file contents readable)) := by
  rw [isRegularFile]
  rcases fs.status p with error | _ | ⟨searchable⟩ | ⟨contents, readable⟩ | ⟨absolute, target⟩ | _
  all_goals simp [Except.map]

/-- Nothing is found under a path whose walk fails for want of an entry or a directory. -/
theorem status_eq_none {p : Path} (h : fs.status p = .ok none) :
    fs.resolve p = .error .notFound ∨ fs.resolve p = .error .notDirectory := by
  rw [status] at h
  split at h
  · rename_i place hplace
    obtain ⟨e, he⟩ := exists_entry hplace
    rw [he] at h
    cases h
  · exact .inl ‹_›
  · exact .inr ‹_›
  · cases h

theorem lexicallyNormal_names (ns : List FileName) :
    lexicallyNormal (ns.map .name) = ns.map .name := by
  have hfold : ∀ (ns : List FileName) (normal : Path), (ns.map Element.name).foldl
      (fun (normal : Path) e ↦
        match e with
        | .current => normal
        | .parent => normal.dropLast
        | .name _ => normal ++ [e]) normal = normal ++ ns.map .name := by
    intro ns
    induction ns with
    | nil => exact fun normal ↦ (List.append_nil normal).symm
    | cons n ns ih =>
      intro normal
      rw [List.map_cons, List.foldl_cons, ih, List.append_assoc]
      rfl
  rw [lexicallyNormal, hfold, List.nil_append]

theorem existingPart_spec {p : Path} : ∀ {result existing rest : Path},
    (∃ e, fs.status result = .ok (some e)) →
    fs.existingPart result p = .ok (existing, rest) →
    (∃ e, fs.status existing = .ok (some e)) ∧ existing ++ rest = result ++ p ∧
      ∀ e rest', rest = e :: rest' → fs.status (existing ++ [e]) = .ok none := by
  induction p with
  | nil =>
    intro result existing rest hresult h
    cases h
    exact ⟨hresult, rfl, fun _ _ h ↦ by cases h⟩
  | cons e p ih =>
    intro result existing rest hresult h
    rw [existingPart] at h
    split at h
    · rename_i found hstatus
      obtain ⟨hexisting, happend, hnext⟩ := ih ⟨found, hstatus⟩ h
      exact ⟨hexisting, by rw [happend, List.append_assoc, List.singleton_append], hnext⟩
    · cases h
      exact ⟨hresult, rfl, fun e' rest' h ↦ by cases h; assumption⟩
    · cases h

theorem status_root : ∃ e, fs.status [] = .ok (some e) := by
  obtain ⟨searchable, hroot⟩ := fs.root
  exact ⟨.directory searchable, status_eq_some_iff.mpr ⟨[], walk_nil _ _, hroot⟩⟩

/-- What is found under an accessible place's own path is what stands there. -/
theorem resolve_names {place : List FileName} (h : fs.Accessible place) :
    fs.resolve (place.map .name) = .ok place :=
  walk_of_accessible h kMaxLinks

theorem canonical_names {place : List FileName} (h : fs.Accessible place) :
    fs.canonical (place.map .name) = .ok (place.map .name) := by
  rw [canonical, resolve_names h]
  rfl

theorem exists_of_canonical {p r : Path} (h : fs.canonical p = .ok r) :
    ∃ place, fs.resolve p = .ok place ∧ r = place.map .name ∧ fs.Accessible place := by
  rw [canonical] at h
  cases hplace : fs.resolve p with
  | error e =>
    rw [hplace] at h
    cases h
  | ok place =>
    rw [hplace] at h
    exact ⟨place, rfl, (Except.ok.inj h).symm, accessible_of_walk accessible_nil hplace⟩

theorem status_of_rest {existing r rest : Path} {e : Element FileName}
    (hcanonical : fs.canonical existing = .ok r) (hnext : fs.status (existing ++ [e]) = .ok none) :
    fs.status (r ++ e :: rest) = .ok none := by
  obtain ⟨place, hplace, rfl, -⟩ := exists_of_canonical hcanonical
  rcases status_eq_none hnext with herror | herror
  · have hwalk := walk_canonical_of_error hplace herror (by decide) rest
    rw [status, resolve, hwalk]
  · have hwalk := walk_canonical_of_error hplace herror (by decide) rest
    rw [status, resolve, hwalk]

/-- A weakly canonical path is canonical, or its first element that is not found is kept. -/
theorem weaklyCanonical_cases {p r : Path} (h : fs.weaklyCanonical p = .ok r) :
    fs.canonical p = .ok r ∨ ∃ existing result e rest, fs.canonical existing = .ok result ∧
      existing ++ e :: rest = p ∧ fs.status (existing ++ [e]) = .ok none ∧
      r = lexicallyNormal (result ++ e :: rest) := by
  rw [weaklyCanonical] at h
  split at h
  · exact .inl h
  · rename_i hnone
    cases hpart : fs.existingPart [] p with
    | error error =>
      rw [hpart] at h
      cases h
    | ok part =>
      obtain ⟨existing, rest⟩ := part
      obtain ⟨⟨found, hexisting⟩, happend, hnext⟩ := existingPart_spec status_root hpart
      rw [List.nil_append] at happend
      rw [hpart] at h
      obtain ⟨result, hresult, hr⟩ : ∃ result, fs.canonical existing = .ok result ∧
          r = lexicallyNormal (result ++ rest) := by
        change (fs.canonical existing >>= _) = _ at h
        cases hresult : fs.canonical existing with
        | error error =>
          rw [hresult] at h
          cases h
        | ok result =>
          rw [hresult] at h
          exact ⟨result, rfl, (Except.ok.inj h).symm⟩
      cases rest with
      | nil =>
        -- all of it exists, so the status of the whole path would be known
        rw [List.append_nil] at happend
        cases (happend ▸ hexisting).symm.trans hnone
      | cons e rest =>
        exact .inr ⟨existing, result, e, rest, hresult, happend, hnext e rest rfl, hr⟩
  · cases h

/-- **What is found under a weakly canonical path** stands at the end of it. -/
theorem accessible_of_weaklyCanonical {ns : List FileName} {r : Path} {e : Entry FileName Bytes}
    (h : fs.weaklyCanonical (ns.map .name) = .ok r) (he : fs.status r = .ok (some e)) :
    ∃ place, r = place.map .name ∧ fs.Accessible place ∧ fs.entry place = some e := by
  rcases weaklyCanonical_cases h with hcanonical | ⟨existing, result, e', rest, hresult, happend,
    hnext, rfl⟩
  · obtain ⟨place, -, rfl, hplace⟩ := exists_of_canonical hcanonical
    obtain ⟨place', hplace', hentry⟩ := status_eq_some_iff.mp he
    obtain rfl := Except.ok.inj ((resolve_names hplace).symm.trans hplace')
    exact ⟨place, rfl, hplace, hentry⟩
  · obtain ⟨place, -, rfl, -⟩ := exists_of_canonical hresult
    -- names are put behind names, and nothing is normalized away
    obtain ⟨-, ns', -, -, hrest⟩ := List.map_eq_append_iff.mp happend.symm
    have hnormal : lexicallyNormal (place.map .name ++ e' :: rest) =
        place.map .name ++ e' :: rest := by
      rw [← hrest, ← List.map_append, lexicallyNormal_names]
    rw [hnormal, status_of_rest hresult hnext] at he
    cases he

theorem weaklyCanonical_names {place : List FileName} {e : Entry FileName Bytes}
    (h : fs.Accessible place) (he : fs.entry place = some e) :
    fs.weaklyCanonical (place.map .name) = .ok (place.map .name) := by
  rw [weaklyCanonical, status_eq_some_iff.mpr ⟨place, resolve_names h, he⟩]
  exact canonical_names h

/-! ## Regular files -/

section RegularFile

variable {place : List FileName} {contents : Bytes} {readable : Bool}

theorem fileSize_names (h : fs.Accessible place)
    (he : fs.entry place = some (.file contents readable)) :
    fs.fileSize (place.map .name) = .ok contents.length := by
  rw [fileSize, resolve_names h]
  change (match fs.entry place with
    | some (.file contents _) => Except.ok contents.length
    | _ => .error Errno.notSupported) = _
  rw [he]

theorem openFile_names (h : fs.Accessible place)
    (he : fs.entry place = some (.file contents readable)) :
    fs.openFile (place.map .name) = if readable then some contents else none := by
  rw [openFile, resolve_names h]
  dsimp only
  rw [he]
  cases readable <;> rfl

theorem isRegularFile_names (h : fs.Accessible place)
    (he : fs.entry place = some (.file contents readable)) :
    fs.isRegularFile (place.map .name) = .ok true :=
  isRegularFile_eq_true_iff.mpr
    ⟨contents, readable, status_eq_some_iff.mpr ⟨place, resolve_names h, he⟩⟩

theorem isDirectory_names (h : fs.Accessible place)
    (he : fs.entry place = some (.file contents readable)) :
    fs.isDirectory (place.map .name) = .ok false := by
  rw [isDirectory, status_eq_some_iff.mpr ⟨place, resolve_names h, he⟩]
  rfl

/-- Without symbolic links, a file that can be opened stands where its path says. -/
theorem accessible_of_openFile (hfree : fs.LinkFree)
    (h : fs.openFile (place.map .name) = some contents) :
    fs.Accessible place ∧ fs.entry place = some (.file contents true) := by
  rw [openFile] at h
  split at h
  · rename_i place' hplace
    obtain rfl : place' = place := eq_of_walk_names hfree _ _ hplace
    refine ⟨accessible_of_walk accessible_nil hplace, ?_⟩
    split at h
    · rename_i he
      rw [he, Option.some.inj h]
    · cases h
  · cases h

end RegularFile

end Filesystem

end Aevox
