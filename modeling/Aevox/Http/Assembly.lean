import Aevox.Http.HeaderViews

/-!
# Requests put together from pieces

llhttp reports the spans of a message in as many pieces as it likes, and nothing says that a field
name has any bytes (`Cuts`). What the callbacks make of such a trace is computed from left to right:
a field is *held* in the two buffers until the next name, or the end of the header section, commits
it (`committed`). A field without a name is never stored, and its value is put in front of the next
one. What follows from this for the header section and the trailers is counted in stored pairs
(`headerStorage_heldAll`).
-/

namespace Aevox

/-- The pieces in which llhttp reports a message. -/
structure Cuts where
  method : List Bytes
  target : List Bytes
  fields : List (List Bytes × List Bytes)
  info : HeadersInfo
  body : List Bytes
  trailers : List (List Bytes × List Bytes)
  /-- A field is reported by its name and then its value, either of which may be empty. -/
  reported : ∀ f ∈ fields ++ trailers, f.1 ≠ [] ∧ f.2 ≠ []

namespace Cuts

/-- The callbacks of one field. -/
def fieldPieces (f : List Bytes × List Bytes) : List Callback :=
  f.1.map .onHeaderField ++ f.2.map .onHeaderValue

/-- The callbacks of the request line and the header section. -/
def headTrace (cuts : Cuts) : List Callback :=
  cuts.method.map .onMethod ++ (cuts.target.map .onUrl ++
    (cuts.fields.flatMap fieldPieces ++ [.onHeadersComplete cuts.info]))

/-- The callbacks of the body and the trailers. -/
def tailTrace (cuts : Cuts) : List Callback :=
  cuts.body.map .onBody ++ (cuts.trailers.flatMap fieldPieces ++ [.onMessageComplete])

/-- The callbacks of the whole message. -/
def trace (cuts : Cuts) : List Callback := cuts.headTrace ++ cuts.tailTrace

/-- A field, its pieces put together. -/
def joined (f : List Bytes × List Bytes) : Bytes × Bytes := (f.1.flatten, f.2.flatten)

end Cuts

namespace HttpParser.Impl

open Cuts

/-! ## Runs without an error -/

theorem deliver_append_eq_ok_iff {s q : Impl} {t t' : List Callback} :
    s.deliver (t ++ t') = .ok q ↔ ∃ s', s.deliver t = .ok s' ∧ s'.deliver t' = .ok q := by
  rw [deliver_append]
  cases s.deliver t with
  | error e =>
    refine ⟨fun h ↦ (nomatch h), ?_⟩
    rintro ⟨_, h, -⟩
    exact nomatch h
  | ok s' =>
    refine ⟨fun h ↦ ⟨s', rfl, h⟩, ?_⟩
    rintro ⟨_, hs, h⟩
    exact Except.ok.inj hs ▸ h

theorem lastError_of_commitHeader {s e : Impl} (h : s.commitHeader = .error e) :
    e.lastError = .tooManyHeaders := by
  rw [commitHeader] at h
  split at h
  · cases h
  · dsimp only at h
    split at h
    · rw [← Except.error.inj h]
    · cases h

theorem lastError_of_onCallback {s e : Impl} {c : Callback} (h : s.onCallback c = .error e) :
    e.lastError = .tooManyHeaders ∨ e.lastError = .tooLarge := by
  cases c with
  | onHeaderField piece =>
    rw [onCallback, onHeaderField] at h
    split at h
    · rcases hs : s.commitHeader with e' | s' <;> rw [hs] at h
      · exact Or.inl (lastError_of_commitHeader (hs.trans h))
      · cases h
    · cases h
  | onHeadersComplete info =>
    rw [onCallback, onHeadersComplete] at h
    rcases hs : s.commitHeader with e' | s' <;> rw [hs] at h
    · exact Or.inl (lastError_of_commitHeader (hs.trans h))
    · cases h
  | onBody piece =>
    rw [onCallback, onBody] at h
    dsimp only at h
    split at h
    · rw [← Except.error.inj h]
      exact Or.inr rfl
    · cases h
  | _ => cases h

theorem lastError_of_deliver {t : List Callback} : ∀ {s e : Impl}, s.deliver t = .error e →
    e.lastError ≠ .incomplete := by
  induction t with
  | nil => exact fun h ↦ nomatch h
  | cons c t ih =>
    intro s e h
    rw [deliver_cons] at h
    rcases hs : s.onCallback c with e' | s' <;> rw [hs] at h
    · rw [← Except.error.inj h]
      rcases lastError_of_onCallback hs with hcause | hcause
      · exact hcause.trans_ne nofun
      · exact hcause.trans_ne nofun
    · exact ih h

/-! ## Spans -/

theorem deliver_methods (ps : List Bytes) : ∀ {s : Impl}, s.pending.method = s.methodBuf →
    s.deliver (ps.map .onMethod) = .ok { s with
      methodBuf := s.methodBuf ++ ps.flatten
      pending := { s.pending with method := s.methodBuf ++ ps.flatten } } := by
  induction ps with
  | nil =>
    intro s hs
    rw [List.flatten_nil, List.append_nil]
    exact congrArg (fun method ↦ Except.ok { s with pending := { s.pending with method } }) hs
  | cons piece ps ih =>
    intro s hs
    rw [List.map_cons, deliver_cons]
    refine (ih (s := s.onMethod piece) rfl).trans ?_
    simp only [onMethod, List.flatten_cons, List.append_assoc]

theorem deliver_urls (ps : List Bytes) : ∀ {s : Impl}, s.pending.target = s.targetBuf →
    s.deliver (ps.map .onUrl) = .ok { s with
      targetBuf := s.targetBuf ++ ps.flatten
      pending := { s.pending with target := s.targetBuf ++ ps.flatten } } := by
  induction ps with
  | nil =>
    intro s hs
    rw [List.flatten_nil, List.append_nil]
    exact congrArg (fun target ↦ Except.ok { s with pending := { s.pending with target } }) hs
  | cons piece ps ih =>
    intro s hs
    rw [List.map_cons, deliver_cons]
    refine (ih (s := s.onUrl piece) rfl).trans ?_
    simp only [onUrl, List.flatten_cons, List.append_assoc]

theorem of_deliver_bodies {ps : List Bytes} : ∀ {s q : Impl}, s.deliver (ps.map .onBody) = .ok q →
    q = { s with chunkBuf := s.chunkBuf ++ ps.flatten, bodyByteCount := q.bodyByteCount } := by
  induction ps with
  | nil =>
    intro s q h
    rw [← Except.ok.inj h, List.flatten_nil, List.append_nil]
  | cons piece ps ih =>
    intro s q h
    rw [List.map_cons, deliver_cons, onCallback, onBody] at h
    dsimp only at h
    split at h
    · cases h
    · rw [ih h, List.flatten_cons, List.append_assoc]

/-! ## Fields -/

/-- What is held has been stored, if it has a name. -/
def committed (s : Impl) : Impl :=
  if s.fieldBuf = [] then s
  else { s with
    headerStorage := s.headerStorage.emplaceBack (s.fieldBuf, s.valueBuf)
    fieldBuf := []
    valueBuf := []
    headerCount := s.headerCount + 1 }

/-- A name and a value are put behind what is held. -/
def hold (s : Impl) (f : Bytes × Bytes) : Impl :=
  { s with fieldBuf := s.fieldBuf ++ f.1, valueBuf := s.valueBuf ++ f.2, inValue := true }

/-- Without a value there is no name. -/
def Settled (s : Impl) : Prop := s.inValue = false → s.fieldBuf = []

theorem eq_committed {s q : Impl} (h : s.commitHeader = .ok q) : q = s.committed := by
  rw [commitHeader] at h
  rw [committed]
  split at h
  · rw [if_pos ‹_›, ← Except.ok.inj h]
  · rw [if_neg ‹_›]
    dsimp only at h
    split at h
    · cases h
    · exact (Except.ok.inj h).symm

@[simp] theorem fieldBuf_committed (s : Impl) : s.committed.fieldBuf = [] := by
  rw [committed]
  split
  · assumption
  · rfl

theorem committed_of_fieldBuf {s : Impl} (h : s.fieldBuf = []) : s.committed = s := if_pos h

@[simp] theorem pending_committed (s : Impl) : s.committed.pending = s.pending := by
  rw [committed]
  split <;> rfl

@[simp] theorem chunkBuf_committed (s : Impl) : s.committed.chunkBuf = s.chunkBuf := by
  rw [committed]
  split <;> rfl

theorem deliver_names (ns : List Bytes) : ∀ {s : Impl}, s.inValue = false →
    s.deliver (ns.map .onHeaderField) = .ok { s with fieldBuf := s.fieldBuf ++ ns.flatten } := by
  induction ns with
  | nil =>
    intro s _
    rw [List.flatten_nil, List.append_nil]
    rfl
  | cons n ns ih =>
    intro s hs
    have hfield : s.onHeaderField n = .ok { s with fieldBuf := s.fieldBuf ++ n } := by
      rw [onHeaderField, if_neg (by simp [hs])]
    rw [List.map_cons, deliver_cons, onCallback, hfield]
    refine (ih (s := { s with fieldBuf := s.fieldBuf ++ n }) hs).trans ?_
    simp only [List.flatten_cons, List.append_assoc]

theorem deliver_values {vs : List Bytes} : ∀ {s : Impl}, vs ≠ [] →
    s.deliver (vs.map .onHeaderValue) =
      .ok { s with valueBuf := s.valueBuf ++ vs.flatten, inValue := true } := by
  induction vs with
  | nil => exact fun h ↦ absurd rfl h
  | cons v vs ih =>
    intro s _
    rw [List.map_cons, deliver_cons]
    cases vs with
    | nil =>
      rw [List.flatten_singleton]
      rfl
    | cons v' vs =>
      refine (ih (s := s.onHeaderValue v) (List.cons_ne_nil v' vs)).trans ?_
      simp only [onHeaderValue, List.flatten_cons, List.append_assoc]

/-- **A field** commits what has been held before, and is held then. -/
theorem of_deliver_fieldPieces {s q : Impl} {f : List Bytes × List Bytes} (hs : s.Settled)
    (hf : f.1 ≠ [] ∧ f.2 ≠ []) (h : s.deliver (fieldPieces f) = .ok q) :
    q = s.committed.hold (joined f) := by
  obtain ⟨s₁, hnames, hvalues⟩ := deliver_append_eq_ok_iff.mp h
  have hs₁ : s₁ = { s.committed with inValue := false, fieldBuf := f.1.flatten } := by
    obtain ⟨n, ns, hcons⟩ := List.exists_cons_of_ne_nil hf.1
    rw [hcons, List.map_cons, deliver_cons, onCallback, onHeaderField] at hnames
    rw [hcons]
    by_cases hvalue : s.inValue = true
    · rw [if_pos hvalue] at hnames
      rcases hcommit : s.commitHeader with e | s' <;> rw [hcommit] at hnames
      · cases hnames
      · obtain rfl := eq_committed hcommit
        have hrest := (deliver_names ns (s := { s.committed with
          inValue := false, fieldBuf := s.committed.fieldBuf ++ n }) rfl).symm.trans hnames
        rw [← Except.ok.inj hrest, fieldBuf_committed]
        rfl
    · rw [if_neg hvalue] at hnames
      have hvalue : s.inValue = false := Bool.not_eq_true _ ▸ hvalue
      have hrest := (deliver_names ns (s := { s with fieldBuf := s.fieldBuf ++ n })
        hvalue).symm.trans hnames
      rw [← Except.ok.inj hrest, committed_of_fieldBuf (hs hvalue), hs hvalue]
      exact congrArg (fun inValue ↦ { s with inValue, fieldBuf := (n :: ns).flatten }) hvalue
  rw [deliver_values hf.2] at hvalues
  rw [← Except.ok.inj hvalues, hs₁, hold, fieldBuf_committed]
  rfl

/-! ## Sections -/

/-- The fields of a section have been held one after another. -/
def heldAll (s : Impl) (ps : List (Bytes × Bytes)) : Impl :=
  ps.foldl (fun s f ↦ s.committed.hold f) s

/-- What a section leaves in the storage: the value of a field without a name is put in front of
the next value. -/
def storedPairs : Bytes → List (Bytes × Bytes) → List (Bytes × Bytes)
  | _, [] => []
  | left, f :: ps =>
    if f.1 = [] then storedPairs (left ++ f.2) ps else (f.1, left ++ f.2) :: storedPairs [] ps

theorem length_storedPairs (ps : List (Bytes × Bytes)) : ∀ left : Bytes,
    (storedPairs left ps).length = ps.countP fun f ↦ f.1 ≠ [] := by
  induction ps with
  | nil => exact fun _ ↦ rfl
  | cons f ps ih =>
    intro left
    rw [storedPairs, List.countP_cons]
    split
    · rw [ih, if_neg (by simpa using ‹f.1 = []›), Nat.add_zero]
    · rw [List.length_cons, ih, if_pos (by simpa using ‹¬f.1 = []›)]

/-- Exactly the sections whose fields all have names are stored as they are. -/
theorem storedPairs_eq_self_iff (ps : List (Bytes × Bytes)) :
    storedPairs [] ps = ps ↔ ∀ f ∈ ps, f.1 ≠ [] := by
  constructor
  · intro h
    have hcount : (ps.countP fun f ↦ f.1 ≠ []) = ps.length := by
      rw [← length_storedPairs ps [], h]
    simpa using List.countP_eq_length.mp hcount
  · intro h
    induction ps with
    | nil => rfl
    | cons f ps ih =>
      rw [storedPairs, if_neg (h f List.mem_cons_self), List.nil_append,
        ih fun g hg ↦ h g (List.mem_cons_of_mem f hg)]

theorem headerStorage_heldAll (ps : List (Bytes × Bytes)) : ∀ s : Impl,
    (s.heldAll ps).committed.headerStorage =
      s.committed.headerStorage.append (storedPairs s.committed.valueBuf ps) := by
  induction ps with
  | nil => exact fun s ↦ (GrowingVector.append_nil _).symm
  | cons f ps ih =>
    intro s
    rw [heldAll, List.foldl_cons, ← heldAll, ih, storedPairs]
    have hfield : (s.committed.hold f).fieldBuf = f.1 := by rw [hold, fieldBuf_committed]; rfl
    by_cases hname : f.1 = []
    · rw [committed_of_fieldBuf (hfield.trans hname), if_pos hname]
      rfl
    · have hstore : (s.committed.hold f).committed.headerStorage =
          s.committed.headerStorage.append [(f.1, s.committed.valueBuf ++ f.2)] := by
        rw [committed, if_neg (hfield ▸ hname), hfield]
        rfl
      have hleft : (s.committed.hold f).committed.valueBuf = [] := by
        rw [committed, if_neg (hfield ▸ hname)]
      rw [hstore, hleft, GrowingVector.append_append, if_neg hname]
      rfl

theorem headerStorage_heldAll_dropLast {s : Impl} (hs : s.fieldBuf = [])
    (ps : List (Bytes × Bytes)) : (s.heldAll ps).headerStorage =
      s.headerStorage.append (storedPairs s.valueBuf ps.dropLast) := by
  rcases List.eq_nil_or_concat ps with rfl | ⟨ps, f, rfl⟩
  · exact (GrowingVector.append_nil _).symm
  · rw [List.concat_eq_append, List.dropLast_concat, heldAll, List.foldl_append, ← heldAll]
    refine (headerStorage_heldAll ps s).trans ?_
    rw [committed_of_fieldBuf hs]

theorem pending_heldAll (ps : List (Bytes × Bytes)) : ∀ s : Impl,
    (s.heldAll ps).pending = s.pending ∧ (s.heldAll ps).chunkBuf = s.chunkBuf := by
  induction ps with
  | nil => exact fun _ ↦ ⟨rfl, rfl⟩
  | cons f ps ih =>
    intro s
    obtain ⟨hpending, hchunk⟩ := ih (s.committed.hold f)
    exact ⟨hpending.trans (pending_committed s), hchunk.trans (chunkBuf_committed s)⟩

theorem of_deliver_section {fs : List (List Bytes × List Bytes)} : ∀ {s q : Impl}, s.Settled →
    (∀ f ∈ fs, f.1 ≠ [] ∧ f.2 ≠ []) → s.deliver (fs.flatMap fieldPieces) = .ok q →
    q = s.heldAll (fs.map joined) := by
  induction fs with
  | nil => exact fun _ _ h ↦ (Except.ok.inj h).symm
  | cons f fs ih =>
    intro s q hs hfs h
    rw [List.flatMap_cons] at h
    obtain ⟨s', hfield, hrest⟩ := deliver_append_eq_ok_iff.mp h
    obtain rfl := of_deliver_fieldPieces hs (hfs f List.mem_cons_self) hfield
    exact ih (fun hvalue ↦ absurd hvalue (by simp [hold]))
      (fun g hg ↦ hfs g (List.mem_cons_of_mem f hg)) hrest

/-! ## Messages -/

/-- The storage when the header section has ended. -/
def sectionStorage (s : Impl) (cuts : Cuts) : HeaderStorage :=
  s.headerStorage.append (storedPairs [] (cuts.fields.map joined))

/-- The request line and the header section, up to the end of which everything has been stored. -/
theorem of_deliver_headTrace {s q : Impl} (hs : s.Blank) {cuts : Cuts}
    (h : s.deliver cuts.headTrace = .ok q) :
    q.fieldBuf = [] ∧ q.chunkBuf = [] ∧ q.headerStorage = s.sectionStorage cuts ∧
      q.pending = { method := cuts.method.flatten
                    target := cuts.target.flatten
                    headers := (s.sectionStorage cuts).refs
                    versionMajor := cuts.info.httpMajor
                    versionMinor := cuts.info.httpMinor
                    keepAlive := cuts.info.shouldKeepAlive
                    upgrade := cuts.info.upgrade } := by
  obtain ⟨s₁, hmethod, h⟩ := deliver_append_eq_ok_iff.mp h
  rw [deliver_methods _ (by rw [hs.pending, hs.methodBuf]), hs.methodBuf] at hmethod
  obtain ⟨s₂, htarget, h⟩ := deliver_append_eq_ok_iff.mp h
  rw [← Except.ok.inj hmethod, deliver_urls _ (by simp [hs.pending, hs.targetBuf])] at htarget
  obtain ⟨s₃, hsection, h⟩ := deliver_append_eq_ok_iff.mp h
  have hstart : s₂.fieldBuf = [] := by rw [← Except.ok.inj htarget]; exact hs.fieldBuf
  have hs₃ := of_deliver_section (fun _ ↦ hstart)
    (fun f hf ↦ cuts.reported f (List.mem_append_left _ hf)) hsection
  obtain ⟨hpending, hchunk⟩ := pending_heldAll (cuts.fields.map joined) s₂
  have hstorage : s₃.committed.headerStorage = s.sectionStorage cuts := by
    rw [hs₃, headerStorage_heldAll, committed_of_fieldBuf hstart, ← Except.ok.inj htarget]
    dsimp only
    rw [hs.valueBuf, sectionStorage]
  -- the end of the section commits its last field and makes the views
  rw [deliver_cons, onCallback, onHeadersComplete] at h
  rcases hcommit : s₃.commitHeader with e | s₄ <;> rw [hcommit] at h
  · cases h
  obtain rfl := eq_committed hcommit
  rw [← Except.ok.inj h]
  refine ⟨fieldBuf_committed s₃, ?_, hstorage, ?_⟩
  · refine (chunkBuf_committed s₃).trans ?_
    rw [hs₃, hchunk, ← Except.ok.inj htarget]
    exact hs.chunkBuf
  · rw [refreshHeaderViews, hstorage]
    dsimp only
    rw [pending_committed, hs₃, hpending, ← Except.ok.inj htarget, hs.pending, hs.targetBuf]
    rfl

/-- The body and the trailers, the last of which is never stored. -/
theorem of_deliver_tailTrace {s q : Impl} (hs : s.fieldBuf = []) {cuts : Cuts}
    (h : s.deliver cuts.tailTrace = .ok q) :
    q.complete = true ∧ q.pending = s.pending ∧ q.chunkBuf = s.chunkBuf ++ cuts.body.flatten ∧
      q.headerStorage =
        s.headerStorage.append (storedPairs s.valueBuf (cuts.trailers.map joined).dropLast) := by
  obtain ⟨s₁, hbody, h⟩ := deliver_append_eq_ok_iff.mp h
  have hs₁ := of_deliver_bodies hbody
  obtain ⟨s₂, htrailer, h⟩ := deliver_append_eq_ok_iff.mp h
  have hstart : s₁.fieldBuf = [] := by rw [hs₁]; exact hs
  have hs₂ := of_deliver_section (fun _ ↦ hstart)
    (fun f hf ↦ cuts.reported f (List.mem_append_right _ hf)) htrailer
  obtain ⟨hpending, hchunk⟩ := pending_heldAll (cuts.trailers.map joined) s₁
  rw [← Except.ok.inj h]
  refine ⟨rfl, ?_, ?_, ?_⟩
  · refine (congrArg pending hs₂).trans (hpending.trans ?_)
    rw [hs₁]
  · refine (congrArg chunkBuf hs₂).trans (hchunk.trans ?_)
    rw [hs₁]
  · refine (congrArg headerStorage hs₂).trans ((headerStorage_heldAll_dropLast hstart _).trans ?_)
    rw [hs₁]

end HttpParser.Impl

/-! ## What the views of an assembled request show -/

open Cuts HttpParser HttpParser.Impl

variable {σ : Type} {L : Llhttp σ}

/-- The request consists of the spans that were reported, put together; its header views are looked
up in the parser that has just returned it. -/
def Assembles (cuts : Cuts) (r : ParsedRequest HeaderView) (p : HttpParser σ) : Prop :=
  r.method = cuts.method.flatten ∧ r.target = cuts.target.flatten ∧
    r.body = cuts.body.flatten ∧
    r.headers.map p.impl.headerStorage.lookup = cuts.fields.map fun f ↦ some (joined f)

/-- The trailers that are stored: the last one never is, and neither is one without a name. -/
def Cuts.storedTrailers (cuts : Cuts) : ℕ := cuts.trailers.dropLast.countP fun f ↦ f.1.flatten ≠ []

/-- Every field of the header section has a name, and if there is any field, then the stored
trailers fit in behind the fields: `capacity` is the storage's before the request. -/
def Cuts.Kept (growth : Growth) (capacity : ℕ) (cuts : Cuts) : Prop :=
  (∀ f ∈ cuts.fields, f.1.flatten ≠ []) ∧
    (cuts.fields = [] ∨ cuts.fields.length + cuts.storedTrailers ≤
      growth.capacityFor capacity cuts.fields.length)

theorem lookup_views_eq_iff {storage : HeaderStorage} (hempty : storage.entries = [])
    {cuts : Cuts} {left : Bytes} :
    (storage.append (storedPairs [] (cuts.fields.map joined))).refs.map
        ((storage.append (storedPairs [] (cuts.fields.map joined))).append
          (storedPairs left (cuts.trailers.map joined).dropLast)).lookup =
      (cuts.fields.map fun f ↦ some (joined f)) ↔ cuts.Kept storage.growth storage.capacity := by
  have hnamed : storedPairs [] (cuts.fields.map joined) = cuts.fields.map joined ↔
      ∀ f ∈ cuts.fields, f.1.flatten ≠ [] := by
    rw [storedPairs_eq_self_iff, List.forall_mem_map]
    rfl
  have htrailers : (storedPairs left (cuts.trailers.map joined).dropLast).length =
      cuts.storedTrailers := by
    rw [length_storedPairs, ← List.map_dropLast, List.countP_map]
    rfl
  have hentries : (storage.append (storedPairs [] (cuts.fields.map joined))).entries =
      storedPairs [] (cuts.fields.map joined) := by
    rw [GrowingVector.entries_append, hempty, List.nil_append]
  have hmap : (cuts.fields.map fun f ↦ some (joined f)) = (cuts.fields.map joined).map some := by
    rw [List.map_map]
    rfl
  rw [GrowingVector.lookup_refs_append, hentries, htrailers,
    GrowingVector.capacity_append storage hempty, hmap, Kept, ← hnamed]
  constructor
  · intro h
    split at h
    · rename_i hroom
      have hsame := List.map_injective_iff.mpr (fun _ _ h ↦ Option.some.inj h) h
      rw [hsame, List.length_map] at hroom
      exact ⟨hsame, Or.inr hroom⟩
    · -- a view that dangles shows no field, so there was none
      cases hfields : cuts.fields with
      | nil => exact ⟨rfl, Or.inl rfl⟩
      | cons f fs =>
        rw [hfields] at h
        have hmem : some (joined f) ∈ ((f :: fs).map joined).map some := by simp
        rw [← h, List.mem_map] at hmem
        obtain ⟨_, -, hnone⟩ := hmem
        exact absurd hnone (by simp)
  · rintro ⟨hsame, hnil | hroom⟩
    · rw [hnil]
      exact ite_self _
    · rw [hsame, List.length_map, if_pos hroom]

/-- **Requests are the concatenations of their spans exactly when the header section is kept.** A
fresh parser has been fed any reads that make llhttp report a message in pieces, and has returned
its request. -/
theorem feedReads_assembles_iff {p : HttpParser σ} (hp : p.Fresh L) {cuts : Cuts}
    {reads : List Bytes} {unread : Bytes} (hrun : L.Completes L.init reads cuts.trace unread)
    {r : ParsedRequest HeaderView} {p' : HttpParser σ} {rest : List Bytes}
    (hfeed : p.feedReads L reads = (.ok r, p', rest)) :
    Assembles cuts r p' ↔
      cuts.Kept p.impl.headerStorage.growth p.impl.headerStorage.capacity := by
  rcases hdeliver : p.impl.deliver cuts.trace with e | q
  · -- a callback that reports an error makes the parser answer with an error
    obtain ⟨p'', rest', herr⟩ := feedReads_of_error (runs_of_completes hrun) hp.parser
      hp.blank.hasError hdeliver (lastError_of_deliver hdeliver)
    exact absurd (hfeed.symm.trans herr) (by simp)
  · obtain ⟨s, hhead, htail⟩ := deliver_append_eq_ok_iff.mp hdeliver
    obtain ⟨hfield, hchunk, hstorage, hpending⟩ := of_deliver_headTrace hp.blank hhead
    obtain ⟨hcomplete, hkept, hbody, hfinal⟩ := of_deliver_tailTrace hfield htail
    obtain ⟨next, hread⟩ := feedReads_of_completes hrun hp.parser hp.blank.hasError hdeliver
      hcomplete
    obtain ⟨hr, hp'⟩ := Prod.ext_iff.mp (hfeed.symm.trans hread)
    obtain ⟨hp', -⟩ := Prod.ext_iff.mp hp'
    have hr := Except.ok.inj hr
    dsimp only at hp'
    have hviews : p'.impl.headerStorage = (p.impl.sectionStorage cuts).append
        (storedPairs s.valueBuf (cuts.trailers.map joined).dropLast) := by
      rw [hp', ← hstorage]
      exact hfinal
    rw [Assembles, hr, hkept, hpending, hbody, hchunk, hviews]
    rw [sectionStorage, lookup_views_eq_iff hp.blank.storage]
    exact ⟨fun h ↦ h.2.2.2, fun h ↦ ⟨rfl, rfl, rfl, h⟩⟩

/-- A request whose header name is cut by the end of the first read. -/
def splitHead : Llhttp.Script × Llhttp.Script :=
  (.span .onMethod "GET" ++ .quiet " " ++ .span .onUrl "/x" ++ .quiet " HTTP/1.1\r\n" ++
    .span .onHeaderField "Ho",
   .span .onHeaderField "st" ++ .quiet ": " ++ .span .onHeaderValue "a" ++ .quiet "\r\n\r" ++
    .newline [.onHeadersComplete {}, .onMessageComplete])

/-- What llhttp reports of it. -/
def splitCuts : Cuts where
  method := [ascii "GET"]
  target := [ascii "/x"]
  fields := [([ascii "Ho", ascii "st"], [ascii "a"])]
  info := {}
  body := []
  trailers := []
  reported := by decide

theorem feedReads_assembles_split :
    ∃ r p' rest, (create (Llhttp.replay (splitHead.1 ++ splitHead.2)) {}).feedReads
        (Llhttp.replay (splitHead.1 ++ splitHead.2)) [splitHead.1.wire, splitHead.2.wire] =
          (.ok r, p', rest) ∧ (Assembles splitCuts r p' ↔ splitCuts.Kept .doubling 0) := by
  have hfresh := fresh_create (Llhttp.replay (splitHead.1 ++ splitHead.2)) {}
  have hlast := Llhttp.replay_execute_wire (splitHead.1 ++ splitHead.2) (a := splitHead.2)
    (by decide) []
  rw [List.append_nil] at hlast
  have hrun := Llhttp.Completes.more (Llhttp.replay_execute_append (splitHead.1 ++ splitHead.2)
    (a := splitHead.1) (b := splitHead.2) (by decide)) (Llhttp.Completes.last hlast)
  have htrace : pieces.coalesce splitHead.1.callbacks ++ pieces.coalesce splitHead.2.callbacks =
      splitCuts.trace := by decide
  rw [htrace] at hrun
  obtain ⟨q, hq, hcomplete⟩ : ∃ q,
      (create (Llhttp.replay (splitHead.1 ++ splitHead.2)) {}).impl.deliver splitCuts.trace =
        .ok q ∧ q.complete = true := ⟨_, rfl, rfl⟩
  obtain ⟨next, hread⟩ := feedReads_of_completes hrun hfresh.parser hfresh.blank.hasError hq
    hcomplete
  exact ⟨_, _, [], hread, feedReads_assembles_iff hfresh hrun hread⟩

/-- The upload with two trailers, each span in one piece. -/
def uploadCuts : Cuts where
  method := [ascii "POST"]
  target := [ascii "/"]
  fields := [([ascii "Transfer-Encoding"], [ascii "chunked"])]
  info := {}
  body := [ascii "hi"]
  trailers := [([ascii "A"], [ascii "1"]), ([ascii "B"], [ascii "2"])]
  reported := by decide

/-- The second of two trailers makes the views of the header section dangle. -/
theorem not_assembles_of_two_trailers :
    ¬∀ (σ : Type) (L : Llhttp σ) (p : HttpParser σ) (cuts : Cuts) (reads : List Bytes)
      (unread : Bytes) (r : ParsedRequest HeaderView) (p' : HttpParser σ) (rest : List Bytes),
      p.Fresh L → L.Completes L.init reads cuts.trace unread →
      p.feedReads L reads = (.ok r, p', rest) → Assembles cuts r p' := by
  intro h
  have hfresh := fresh_create (Llhttp.replay uploadScript) {}
  have hlast := Llhttp.replay_execute_wire uploadScript (a := uploadScript) (by decide) []
  rw [List.append_nil] at hlast
  have hrun := Llhttp.Completes.last hlast
  have htrace : pieces.coalesce uploadScript.callbacks = uploadCuts.trace := by decide
  obtain ⟨p', hread, hstorage, -⟩ := feedReads_message hfresh (m := uploadWithTrailers) (by decide)
    hrun (by decide)
  rw [htrace] at hrun
  obtain ⟨-, -, -, hheaders⟩ := h _ _ _ _ _ _ _ _ _ hfresh hrun hread
  rw [hstorage] at hheaders
  revert hheaders
  decide

end Aevox
