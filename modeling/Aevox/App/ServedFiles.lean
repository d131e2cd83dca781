import Aevox.App.StaticFiles

/-!
# What static files serve

Nothing outside of the root is served (`exists_of_resolveRequestPath`): the decoded segments are
names, so `weakly_canonical` can only be followed by a file at its own canonical path, and this path
is compared with the root after every resolution, also behind the index file.

Everything below the root is served (`serve_of_encodes`): the segments of an encoded relative path
are the names it was made of, the path of an accessible file is canonical already, and it has the
root in front of it.
-/

namespace Aevox

open Coroutine FileTree Delimited Filesystem

namespace StaticFiles

/-! ## Percent-encoding -/

/-- `ch` is the hexadecimal digit for `n`, in upper or lower case. -/
def IsHexDigitOf (ch : UInt8) (n : ℕ) : Prop :=
  (ascii "0123456789abcdef")[n]? = some ch ∨ (ascii "0123456789ABCDEF")[n]? = some ch

/-- `s` is `d` with any of its bytes replaced by an escape, every `%` among them. -/
inductive PercentEncodes : Bytes → Bytes → Prop where
  | nil : PercentEncodes [] []
  | raw {ch : UInt8} {s d : Bytes} (hch : ch ≠ 37) (h : PercentEncodes s d) :
      PercentEncodes (ch :: s) (ch :: d)
  | escape {b hi lo : UInt8} {s d : Bytes} (hhi : IsHexDigitOf hi (b.toNat / 16))
      (hlo : IsHexDigitOf lo (b.toNat % 16)) (h : PercentEncodes s d) :
      PercentEncodes (37 :: hi :: lo :: s) (b :: d)

theorem of_isHexDigitOf {ch : UInt8} {n : ℕ} (h : IsHexDigitOf ch n) :
    isHexDigit ch = true ∧ (hexValue ch).toNat = n := by
  have hlower : ∀ i : Fin 16, isHexDigit ((ascii "0123456789abcdef")[i.val]) = true ∧
      (hexValue ((ascii "0123456789abcdef")[i.val])).toNat = i.val := by decide
  have hupper : ∀ i : Fin 16, isHexDigit ((ascii "0123456789ABCDEF")[i.val]) = true ∧
      (hexValue ((ascii "0123456789ABCDEF")[i.val])).toNat = i.val := by decide
  rcases h with h | h
  · obtain ⟨hn, rfl⟩ := List.getElem?_eq_some_iff.mp h
    exact hlower ⟨n, hn⟩
  · obtain ⟨hn, rfl⟩ := List.getElem?_eq_some_iff.mp h
    exact hupper ⟨n, hn⟩

theorem decoded_of_isHexDigitOf {b hi lo : UInt8} (hhi : IsHexDigitOf hi (b.toNat / 16))
    (hlo : IsHexDigitOf lo (b.toNat % 16)) : hexValue hi <<< 4 ||| hexValue lo = b := by
  have hb : b.toNat < 256 := b.toNat_lt
  have hlow : b.toNat % 16 < 2 ^ 4 := Nat.mod_lt _ (by decide)
  rw [← UInt8.toNat_inj, UInt8.toNat_or, UInt8.toNat_shiftLeft, (of_isHexDigitOf hhi).2,
    (of_isHexDigitOf hlo).2]
  change (b.toNat / 16) <<< 4 % 256 ||| b.toNat % 16 = b.toNat
  rw [Nat.mod_eq_of_lt (by rw [Nat.shiftLeft_eq]; omega), ← Nat.shiftLeft_add_eq_or_of_lt hlow,
    Nat.shiftLeft_eq]
  omega

theorem percentDecodePath_literal {ch : UInt8} (hch : ch ≠ 37) (rest : Bytes) :
    percentDecodePath (ch :: rest) =
      if isRejected ch then none else (percentDecodePath rest).map (ch :: ·) := by
  rw [percentDecodePath.eq_def]
  exact if_pos hch

theorem percentDecodePath_escape (h l : UInt8) (rest : Bytes) :
    percentDecodePath (37 :: h :: l :: rest) =
      if !isHexDigit h || !isHexDigit l then none
      else if isRejected (hexValue h <<< 4 ||| hexValue l) then none
      else (percentDecodePath rest).map ((hexValue h <<< 4 ||| hexValue l) :: ·) := by
  rw [percentDecodePath, if_neg (by decide)]

/-- Decoding undoes every encoding of an admissible text. -/
theorem percentDecodePath_of_encodes {s d : Bytes} (h : PercentEncodes s d)
    (hd : ∀ b ∈ d, isRejected b = false) : percentDecodePath s = some d := by
  induction h with
  | nil => rfl
  | raw hch _ ih =>
    obtain ⟨hb, hd⟩ := List.forall_mem_cons.mp hd
    rw [percentDecodePath_literal hch, if_neg (by simp [hb]), ih hd]
    rfl
  | escape hhi hlo _ ih =>
    obtain ⟨hb, hd⟩ := List.forall_mem_cons.mp hd
    rw [percentDecodePath_escape, (of_isHexDigitOf hhi).1, (of_isHexDigitOf hlo).1,
      decoded_of_isHexDigitOf hhi hlo, hb, ih hd]
    rfl

theorem isRejected_of_decode {s : Bytes} : ∀ {d : Bytes}, percentDecodePath s = some d →
    ∀ b ∈ d, isRejected b = false := by
  induction s using percentDecodePath.induct with
  | case1 =>
    rintro d ⟨⟩
    exact fun _ hb ↦ absurd hb List.not_mem_nil
  | case2 ch rest hch hrejected =>
    intro d h
    rw [percentDecodePath_literal hch, if_pos hrejected] at h
    cases h
  | case3 ch rest hch hrejected ih =>
    intro d h
    rw [percentDecodePath_literal hch, if_neg hrejected] at h
    obtain ⟨d', hd', rfl⟩ := Option.map_eq_some_iff.mp h
    exact List.forall_mem_cons.mpr ⟨by simpa using hrejected, ih hd'⟩
  | case4 ch hch hi lo rest hdigits =>
    intro d h
    obtain rfl : ch = 37 := not_not.mp hch
    rw [percentDecodePath_escape, if_pos hdigits] at h
    cases h
  | case5 ch hch hi lo rest hdigits hrejected =>
    intro d h
    obtain rfl : ch = 37 := not_not.mp hch
    rw [percentDecodePath_escape, if_neg hdigits, if_pos hrejected] at h
    cases h
  | case6 ch hch hi lo rest hdigits hrejected ih =>
    intro d h
    obtain rfl : ch = 37 := not_not.mp hch
    rw [percentDecodePath_escape, if_neg hdigits, if_neg hrejected] at h
    obtain ⟨d', hd', rfl⟩ := Option.map_eq_some_iff.mp h
    exact List.forall_mem_cons.mpr ⟨by simpa using hrejected, ih hd'⟩
  | case7 ch rest hch hshort =>
    intro d h
    obtain rfl : ch = 37 := not_not.mp hch
    rcases rest with _ | ⟨hi, _ | ⟨lo, rest⟩⟩
    · rw [percentDecodePath, if_neg (by decide)] at h
      · cases h
      · simp
    · rw [percentDecodePath, if_neg (by decide)] at h
      · cases h
      · simp
    · exact absurd rfl (hshort hi lo rest)

/-! ## Segments -/

theorem exists_fileName {piece : Bytes} (hne : piece ≠ []) (hslash : slash ∉ piece)
    (hnul : 0 ∉ piece) (hdots : ¬(piece = ascii "." ∨ piece = ascii "..")) :
    ∃ n : FileName, n.bytes = piece :=
  ⟨⟨piece, hne, hslash, hnul, fun h ↦ hdots (.inl h), fun h ↦ hdots (.inr h)⟩, rfl⟩

theorem names_of_appendSegments {segments : List Bytes} : ∀ {candidate r : Path},
    (∀ s ∈ segments, s ≠ [] ∧ slash ∉ s ∧ 0 ∉ s) →
    appendSegments candidate segments = .ok r →
    ∃ ns : List FileName, r = candidate ++ ns.map .name := by
  induction segments with
  | nil =>
    rintro candidate r - ⟨⟩
    exact ⟨[], (List.append_nil candidate).symm⟩
  | cons segment segments ih =>
    intro candidate r hsegments h
    obtain ⟨⟨hne, hslash, hnul⟩, hrest⟩ := List.forall_mem_cons.mp hsegments
    rw [appendSegments] at h
    split at h
    · cases h
    · obtain ⟨n, rfl⟩ := exists_fileName hne hslash hnul ‹_›
      obtain ⟨ns, rfl⟩ := ih hrest h
      refine ⟨n :: ns, ?_⟩
      rw [pathElements_bytes, List.append_assoc]
      rfl

theorem appendSegments_names (ns : List FileName) : ∀ candidate : Path,
    appendSegments candidate (ns.map FileName.bytes) = .ok (candidate ++ ns.map .name) := by
  induction ns with
  | nil => exact fun candidate ↦ congrArg _ (List.append_nil candidate).symm
  | cons n ns ih =>
    intro candidate
    rw [List.map_cons, appendSegments,
      if_neg (fun h ↦ h.elim n.ne_current n.ne_parent), ih, pathElements_bytes, List.append_assoc]
    rfl

/-- The segments of a decoded path can be names. -/
theorem segments_of_decode {s d : Bytes} (h : percentDecodePath s = some d) :
    ∀ segment ∈ splitValidatedSegments d, segment ≠ [] ∧ slash ∉ segment ∧ 0 ∉ segment := by
  intro segment hsegment
  obtain ⟨hne, hslash, hsubset⟩ := of_mem_tokens hsegment
  refine ⟨hne, hslash, fun hnul ↦ ?_⟩
  exact absurd (isRejected_of_decode h 0 (hsubset hnul)) (by decide)

theorem pathElements_index {indexFile : Bytes} (hne : indexFile ≠ [])
    (hvalid : isValidIndexFile indexFile = true) :
    ∃ n : FileName, pathElements indexFile = [.name n] := by
  rw [isValidIndexFile, if_neg hne] at hvalid
  split at hvalid
  · cases hvalid
  · have hall : ∀ ch ∈ indexFile, ¬(ch == slash || ch == 92 || ch == 58 || isAsciiControl ch) := by
      simpa using hvalid
    obtain ⟨n, hn⟩ := exists_fileName hne (fun h ↦ hall slash h (by decide))
      (fun h ↦ hall 0 h (by decide)) ‹_›
    exact ⟨n, hn ▸ pathElements_bytes n⟩

/-! ## The root -/

theorem isWithinRoot_iff {root : Path} : ∀ {candidate : Path},
    isWithinRoot root candidate = true ↔ root <+: candidate := by
  induction root with
  | nil =>
    intro candidate
    refine iff_of_true ?_ List.nil_prefix
    cases candidate <;> rfl
  | cons r root ih =>
    intro candidate
    cases candidate with
    | nil => exact iff_of_false (by simp [isWithinRoot]) (by simp)
    | cons c candidate =>
      rw [isWithinRoot, List.cons_prefix_cons, ← ih]
      by_cases hrc : r = c <;> simp [hrc]

theorem resolveCandidate_eq_ok_iff {fs : Filesystem} {state : StaticFilesState}
    {candidate r : Path} : resolveCandidate fs state candidate = .ok r ↔
      fs.weaklyCanonical candidate = .ok r ∧ state.canonicalRoot <+: r := by
  rw [resolveCandidate]
  split
  · rename_i h
    exact ⟨fun h' ↦ (by cases h'), fun h' ↦ (by cases h.symm.trans h'.1)⟩
  · rename_i resolved h
    rw [← isWithinRoot_iff, h]
    split
    · rename_i hwithin
      exact ⟨fun h' ↦ ⟨congrArg _ (Except.ok.inj h'), Except.ok.inj h' ▸ hwithin⟩,
        fun h' ↦ congrArg _ (Except.ok.inj h'.1)⟩
    · rename_i hwithin
      refine ⟨fun h' ↦ (by cases h'), fun h' ↦ ?_⟩
      exact absurd (Except.ok.inj h'.1 ▸ h'.2) hwithin

/-! ## Nothing else -/

variable {fs : Filesystem} {state : StaticFilesState}

/-- A path below the root that a path of names has been resolved to. -/
def Resolved (fs : Filesystem) (state : StaticFilesState) (r : Path) : Prop :=
  ∃ ns : List FileName, fs.weaklyCanonical (ns.map .name) = .ok r ∧ state.canonicalRoot <+: r

theorem Resolved.resolveIndex {resolved r : Path} (hresolved : Resolved fs state resolved)
    (h : resolveIndex fs state resolved = .ok r) : Resolved fs state r := by
  rw [StaticFiles.resolveIndex] at h
  split at h
  · rename_i hdirectory
    split at h
    · cases h
    · rename_i hindex
      -- the directory is found at its own path, and the index file is put behind it
      obtain ⟨ns, hns, -⟩ := hresolved
      obtain ⟨searchable, hstatus⟩ := isDirectory_eq_true_iff.mp hdirectory
      obtain ⟨place, rfl, -, -⟩ := accessible_of_weaklyCanonical hns hstatus
      obtain ⟨n, hn⟩ := pathElements_index hindex state.index_valid
      rw [hn] at h
      obtain ⟨hcanonical, hroot⟩ := resolveCandidate_eq_ok_iff.mp h
      exact ⟨place ++ [n], by rw [List.map_append]; exact hcanonical, hroot⟩
  · exact Except.ok.inj h ▸ hresolved

theorem bind_eq_ok_iff {ε α β : Type} {x : Except ε α} {f : α → Except ε β} {b : β} :
    x.bind f = .ok b ↔ ∃ a, x = .ok a ∧ f a = .ok b := by
  cases x <;> simp [Except.bind]

theorem requireRegularFile_eq_ok_iff {r path : Path} :
    requireRegularFile fs r = .ok path ↔ fs.isRegularFile r = .ok true ∧ r = path := by
  rw [requireRegularFile]
  split
  · rename_i h
    exact ⟨fun h' ↦ ⟨h, Except.ok.inj h'⟩, fun h' ↦ congrArg _ h'.2⟩
  · rename_i h
    exact ⟨fun h' ↦ (by cases h'), fun h' ↦ (by cases h.symm.trans h'.1)⟩
  · rename_i h
    exact ⟨fun h' ↦ (by cases h'), fun h' ↦ (by cases h.symm.trans h'.1)⟩

/-- **Nothing outside of the root**: what a request path is resolved to is the canonical path of a
regular file, and the root is a prefix of it. -/
theorem exists_of_resolveRequestPath {requestPath : Bytes} {path : Path}
    (h : resolveRequestPath fs state requestPath = .ok path) :
    ∃ place contents readable, path = place.map .name ∧ fs.Accessible place ∧
      fs.entry place = some (.file contents readable) ∧ state.canonicalRoot <+: path := by
  rw [resolveRequestPath] at h
  split at h
  · cases h
  · rename_i decoded hdecoded
    obtain ⟨resolved, hcandidate, h⟩ := bind_eq_ok_iff.mp h
    obtain ⟨candidate, hsegments, hresolved⟩ := bind_eq_ok_iff.mp hcandidate
    obtain ⟨r, hindex, hregular⟩ := bind_eq_ok_iff.mp h
    obtain ⟨hfile, rfl⟩ := requireRegularFile_eq_ok_iff.mp hregular
    obtain ⟨root, hroot⟩ := state.root_names
    obtain ⟨ns, rfl⟩ := names_of_appendSegments (segments_of_decode hdecoded) hsegments
    have hfirst : Resolved fs state resolved := by
      obtain ⟨hcanonical, hwithin⟩ := resolveCandidate_eq_ok_iff.mp hresolved
      refine ⟨root ++ ns, ?_, hwithin⟩
      rwa [List.map_append, ← hroot]
    obtain ⟨ns', hns', hwithin⟩ := hfirst.resolveIndex hindex
    obtain ⟨contents, readable, hstatus⟩ := isRegularFile_eq_true_iff.mp hfile
    obtain ⟨place, rfl, hplace, hentry⟩ := accessible_of_weaklyCanonical hns' hstatus
    exact ⟨place, contents, readable, rfl, hplace, hentry, hwithin⟩

/-! ## Everything below the root -/

section Below

variable {place : List FileName} {contents : Bytes} {readable : Bool}

/-- The answer to a `GET` of a file. -/
def fileResponse (state : StaticFilesState) (path : Path) (contents : Bytes) : Response :=
  ((Response.ok contents).contentType (mimeTypeFor state path)).header (ascii "Content-Length")
    (decimal contents.length)

theorem serve_of_resolved {req : Request}
    (hmatches : prefixMatches req.path state.urlPrefix = true) (hmethod : req.method = .get)
    (hresolved : resolveRequestPath fs state (stripPrefix req.path state.urlPrefix) =
      .ok (place.map .name))
    (hplace : fs.Accessible place) (he : fs.entry place = some (.file contents readable)) :
    serve fs state req =
      ret (if readable then fileResponse state (place.map .name) contents else .notFound []) := by
  rw [serve, if_neg (by rw [hmatches]; decide), if_neg (by rw [hmethod]; decide), hresolved]
  dsimp only
  rw [readFileSize, fileSize_names hplace he]
  dsimp only
  rw [if_neg (by rw [hmethod]; decide), readFileBody, openFile_names hplace he]
  cases readable with
  | false => rfl
  | true =>
    rw [if_pos rfl, if_pos rfl]
    dsimp only
    rw [if_neg (lt_irrefl _), List.take_length]
    rfl

/-- The path of a file below the root is resolved to itself. -/
theorem resolveRequestPath_names {root rel : List FileName} {requestPath decoded : Bytes}
    (hroot : state.canonicalRoot = root.map .name)
    (hdecoded : percentDecodePath requestPath = some decoded)
    (hsegments : splitValidatedSegments decoded = rel.map FileName.bytes)
    (hplace : fs.Accessible (root ++ rel))
    (he : fs.entry (root ++ rel) = some (.file contents readable)) :
    resolveRequestPath fs state requestPath = .ok ((root ++ rel).map .name) := by
  have hcandidate : appendSegments state.canonicalRoot (splitValidatedSegments decoded) =
      .ok ((root ++ rel).map .name) := by
    rw [hsegments, appendSegments_names, hroot, List.map_append]
  have hwithin : state.canonicalRoot <+: (root ++ rel).map .name := by
    rw [hroot, List.map_append]
    exact List.prefix_append _ _
  have hresolved : resolveCandidate fs state ((root ++ rel).map .name) =
      .ok ((root ++ rel).map .name) :=
    resolveCandidate_eq_ok_iff.mpr ⟨weaklyCanonical_names hplace he, hwithin⟩
  have hindex : resolveIndex fs state ((root ++ rel).map .name) =
      .ok ((root ++ rel).map .name) := by
    rw [resolveIndex, isDirectory_names hplace he]
  rw [resolveRequestPath, hdecoded]
  refine bind_eq_ok_iff.mpr ⟨_, bind_eq_ok_iff.mpr ⟨_, hcandidate, hresolved⟩, ?_⟩
  refine bind_eq_ok_iff.mpr ⟨_, hindex, ?_⟩
  exact requireRegularFile_eq_ok_iff.mpr ⟨isRegularFile_names hplace he, rfl⟩

end Below

theorem prefixMatches_append (urlPrefix rest : Bytes) :
    prefixMatches ((if urlPrefix = [slash] then [] else urlPrefix) ++ slash :: rest) urlPrefix =
        true ∧
      stripPrefix ((if urlPrefix = [slash] then [] else urlPrefix) ++ slash :: rest) urlPrefix =
        slash :: rest := by
  rw [prefixMatches, stripPrefix]
  by_cases hroot : urlPrefix = [slash]
  · rw [if_pos hroot, if_pos hroot, if_pos hroot]
    exact ⟨rfl, rfl⟩
  · rw [if_neg hroot, if_neg hroot, if_neg hroot, List.drop_left, if_neg (List.cons_ne_nil _ _)]
    refine ⟨?_, rfl⟩
    rw [Bool.and_eq_true, List.isPrefixOf_iff_prefix, Bool.or_eq_true]
    refine ⟨List.prefix_append _ _, .inr ?_⟩
    rw [List.getElem?_append_right (le_refl _), Nat.sub_self]
    rfl

theorem segments_intercalate (rel : List FileName) :
    splitValidatedSegments (slash :: [slash].intercalate (rel.map FileName.bytes)) =
      rel.map FileName.bytes := by
  rw [splitValidatedSegments, tokens_cons_self]
  induction rel with
  | nil => simp
  | cons n rel ih =>
    have hone : tokens slash n.bytes = [n.bytes] := by
      rw [tokens_of_not_mem n.slash_not_mem, if_neg n.ne_nil]
    cases rel with
    | nil => simpa using hone
    | cons m rel =>
      rw [List.map_cons, List.map_cons, List.intercalate_cons_cons, List.append_assoc,
        List.singleton_append, tokens_append_cons, hone, ← List.map_cons, ih]
      rfl

theorem isRejected_intercalate {rel : List FileName}
    (h : ∀ n ∈ rel, ∀ b ∈ n.bytes, isRejected b = false) :
    ∀ b ∈ slash :: [slash].intercalate (rel.map FileName.bytes), isRejected b = false := by
  refine List.forall_mem_cons.mpr ⟨by decide, ?_⟩
  induction rel with
  | nil => exact fun _ hb ↦ absurd hb List.not_mem_nil
  | cons n rel ih =>
    obtain ⟨hn, hrel⟩ := List.forall_mem_cons.mp h
    cases rel with
    | nil => simpa using hn
    | cons m rel =>
      rw [List.map_cons, List.map_cons, List.intercalate_cons_cons, ← List.map_cons]
      intro b hb
      rcases List.mem_append.mp hb with hb | hb
      · rcases List.mem_append.mp hb with hb | hb
        · exact hn b hb
        · rw [List.mem_singleton.mp hb]
          decide
      · exact ih hrel b hb

/-! ## Exactly what is below the root -/

/-- Every other response is empty and no success. -/
theorem not_success_of_error {res : Response} (e : PathResolutionError)
    (h : res = responseForResolutionError e) :
    ¬(res.statusCode = kStatusOk ∨ res.bodyView ≠ []) := by
  cases e <;> rw [h] <;> decide

theorem exists_of_serve {req : Request} {res : Response} (h : serve fs state req = ret res)
    (hmethod : req.method = .get) (hres : res.statusCode = kStatusOk ∨ res.bodyView ≠ []) :
    ∃ place contents, resolveRequestPath fs state (stripPrefix req.path state.urlPrefix) =
        .ok (place.map .name) ∧
      fs.Accessible place ∧ fs.entry place = some (.file contents true) ∧
      state.canonicalRoot <+: place.map .name ∧
      res = fileResponse state (place.map .name) contents := by
  cases hmatches : prefixMatches req.path state.urlPrefix with
  | false =>
    -- the request goes on to the next middleware
    rw [serve, if_pos hmatches, MiddlewareCode.callNext] at h
    cases h
  | true =>
    cases hresolved : resolveRequestPath fs state (stripPrefix req.path state.urlPrefix) with
    | error e =>
      rw [serve, if_neg (by rw [hmatches]; decide), if_neg (by rw [hmethod]; decide),
        hresolved] at h
      exact absurd hres (not_success_of_error e (Coroutine.ret.inj h).symm)
    | ok path =>
      obtain ⟨place, contents, readable, rfl, hplace, he, hroot⟩ :=
        exists_of_resolveRequestPath hresolved
      rw [serve_of_resolved hmatches hmethod hresolved hplace he] at h
      cases readable with
      | false => exact absurd hres (not_success_of_error .notFound (Coroutine.ret.inj h).symm)
      | true => exact ⟨place, contents, rfl, hplace, he, hroot, (Coroutine.ret.inj h).symm⟩

theorem statusCode_fileResponse (path : Path) (contents : Bytes) :
    (fileResponse state path contents).statusCode = kStatusOk ∧
      (fileResponse state path contents).bodyView = contents :=
  ⟨rfl, rfl⟩

theorem canonical_of_makeState {config : StaticFilesConfig} (h : makeState fs config = .ok state) :
    fs.canonical (pathElements config.root) = .ok state.canonicalRoot := by
  rw [makeState] at h
  split at h
  · cases h
  · split at h
    · cases h
    · split at h
      · cases h
      · rename_i hroot
        split at h
        · cases h
        · split at h
          · cases h
          · split at h
            · split at h
              · cases h
              · rw [hroot, ← Except.ok.inj h]
            · cases h

/-- **Static files serve exactly what is below the root.** The root of a valid configuration is
canonical. On every file system, whatever the request path is: if a `GET` returns anything, it is
the contents of a file whose canonical path has the root as a prefix. Without symbolic links, a
`GET` of the URL prefix and any encoding of the relative path of a file that can be opened returns
its contents. -/
theorem serves_exactly {fs₀ : Filesystem} {config : StaticFilesConfig}
    (hstate : makeState fs₀ config = .ok state) :
    fs₀.canonical (pathElements config.root) = .ok state.canonicalRoot ∧
      (∀ (fs : Filesystem) (req : Request) (res : Response), serve fs state req = ret res →
        req.method = .get → (res.statusCode = kStatusOk ∨ res.bodyView ≠ []) →
        ∃ path contents,
          resolveRequestPath fs state (stripPrefix req.path state.urlPrefix) = .ok path ∧
          fs.canonical path = .ok path ∧ state.canonicalRoot <+: path ∧
          fs.openFile path = some contents ∧ res.bodyView = contents) ∧
      ∀ (fs : Filesystem) (req : Request) (rel : List FileName) (contents encoded : Bytes),
        fs.LinkFree → fs.openFile (state.canonicalRoot ++ rel.map .name) = some contents →
        (∀ n ∈ rel, ∀ b ∈ n.bytes, isRejected b = false) →
        PercentEncodes encoded ([slash].intercalate (rel.map FileName.bytes)) →
        req.method = .get →
        req.path = (if state.urlPrefix = [slash] then [] else state.urlPrefix) ++ slash :: encoded →
        ∃ res, serve fs state req = ret res ∧ res.statusCode = kStatusOk ∧
          res.bodyView = contents := by
  refine ⟨canonical_of_makeState hstate, fun fs req res h hmethod hres ↦ ?_, ?_⟩
  · obtain ⟨place, contents, hresolved, hplace, he, hroot, rfl⟩ := exists_of_serve h hmethod hres
    refine ⟨place.map .name, contents, hresolved, canonical_names hplace, hroot, ?_,
      (statusCode_fileResponse _ _).2⟩
    rw [openFile_names hplace he, if_pos rfl]
  · intro fs req rel contents encoded hfree hfile hnames hencoded hmethod hpath
    obtain ⟨root, hroot⟩ := state.root_names
    rw [hroot, ← List.map_append] at hfile
    obtain ⟨hplace, he⟩ := accessible_of_openFile hfree hfile
    obtain ⟨hmatches, hstrip⟩ := prefixMatches_append state.urlPrefix encoded
    rw [← hpath] at hmatches hstrip
    have hadmissible : ∀ b ∈ slash :: [slash].intercalate (rel.map FileName.bytes),
        isRejected b = false := isRejected_intercalate hnames
    have hdecoded : percentDecodePath (slash :: encoded) =
        some (slash :: [slash].intercalate (rel.map FileName.bytes)) :=
      percentDecodePath_of_encodes (.raw (by decide) hencoded) hadmissible
    have hresolved := resolveRequestPath_names hroot hdecoded (segments_intercalate rel) hplace he
    rw [← hstrip] at hresolved
    refine ⟨_, serve_of_resolved hmatches hmethod hresolved hplace he, ?_⟩
    exact statusCode_fileResponse _ _

/-! ## A directory with one file -/

def siteName : FileName := ⟨ascii "w", by decide, by decide, by decide, by decide, by decide⟩

def pageName : FileName := ⟨ascii "a", by decide, by decide, by decide, by decide, by decide⟩

/-- `/w/a` -/
def siteTree : Filesystem where
  entry
    | [] => some (.directory true)
    | [n] => if n = siteName then some (.directory true) else none
    | [n, m] => if n = siteName ∧ m = pageName then some (.file (ascii "hi") true) else none
    | _ => none
  root := ⟨true, rfl⟩
  parent p n h := by
    rcases p with _ | ⟨m, _ | ⟨m', p⟩⟩
    · exact ⟨true, rfl⟩
    · by_cases hm : m = siteName
      · exact ⟨true, if_pos hm⟩
      · exact absurd (if_neg fun h ↦ hm h.1) h
    · cases p <;> exact absurd rfl h

theorem linkFree_siteTree : siteTree.LinkFree := by
  intro p e he
  rcases p with _ | ⟨n, _ | ⟨m, _ | ⟨m', p⟩⟩⟩
  · rw [← Option.some.inj he]
    rfl
  · obtain ⟨-, he⟩ := Option.ite_none_right_eq_some.mp he
    rw [← Option.some.inj he]
    rfl
  · obtain ⟨-, he⟩ := Option.ite_none_right_eq_some.mp he
    rw [← Option.some.inj he]
    rfl
  · cases he

/-- The only file is served, with its name encoded. -/
theorem serves_page : ∃ state, makeState siteTree { root := ascii "/w/" } = .ok state ∧
    ∃ res, serve siteTree state
        ⟨{ method := ascii "GET", target := ascii "/static/%61?v=1" }, [], 0⟩ = ret res ∧
      res.statusCode = kStatusOk ∧ res.bodyView = ascii "hi" := by
  obtain ⟨state, hstate, hroot, hmount⟩ : ∃ state,
      makeState siteTree { root := ascii "/w/" } = .ok state ∧
      state.canonicalRoot = [.name siteName] ∧ state.urlPrefix = ascii "/static" :=
    ⟨_, rfl, rfl, rfl⟩
  have hencoded : PercentEncodes (ascii "%61") ([slash].intercalate [pageName.bytes]) :=
    .escape (.inl rfl) (.inl rfl) .nil
  have hname : ∀ n ∈ [pageName], ∀ b ∈ n.bytes, isRejected b = false :=
    List.forall_mem_singleton.mpr fun b hb ↦ by
      obtain rfl : b = 97 := List.mem_singleton.mp hb
      rfl
  refine ⟨state, hstate, ?_⟩
  exact (serves_exactly hstate).2.2 siteTree
    ⟨{ method := ascii "GET", target := ascii "/static/%61?v=1" }, [], 0⟩ [pageName] (ascii "hi")
    (ascii "%61") linkFree_siteTree (by rw [hroot]; rfl) hname hencoded rfl
    (by rw [hmount]; rfl)

end StaticFiles

end Aevox
