import Aevox.Http.Parser

/-!
# What the parser makes of a message

llhttp reports a span (the method, the target, a name, a value, the body) in as many pieces as the
reads happen to cut it into. `pieces` says which callbacks belong together, and `deliver_coalesce`
why the cutting never matters: a trace and its coalesced form take the parser to the same state, or
make it fail with the same error. What becomes of a message is therefore computed only once, for
its uncut trace `Message.trace`.

The invariant behind the computation is that at any moment at most one pair is *held*: its name and
value sit in the two buffers and are stored when the next name begins or the header section ends.
Nothing ends a trailer section, so the last trailer is held for good, and every other trailer is
stored behind the pairs of the header section, of which views have been handed out by then.
-/

namespace Aevox

/-! ## Pieces -/

/-- The callback two neighbouring ones are pieces of. -/
def Callback.glue : Callback → Callback → Option Callback
  | .onMethod a, .onMethod b => some (.onMethod (a ++ b))
  | .onUrl a, .onUrl b => some (.onUrl (a ++ b))
  | .onHeaderField a, .onHeaderField b => some (.onHeaderField (a ++ b))
  | .onHeaderValue a, .onHeaderValue b => some (.onHeaderValue (a ++ b))
  | .onBody a, .onBody b => some (.onBody (a ++ b))
  | _, _ => none

/-- Which callbacks belong together. -/
def pieces : Gluing Callback where
  glue := Callback.glue
  glue_assoc := by
    intro a b c d e hab hbd
    cases a <;> cases b <;> cases hab <;> cases d <;> cases hbd <;>
      exact ⟨_, rfl, by simp [Callback.glue]⟩
  glue_eq_none := by
    intro a b c d hab hbd
    cases a <;> cases b <;> cases hab <;> cases d <;> first | rfl | cases hbd

namespace HttpParser.Impl

/-- Two pieces in a row do what the whole span does. -/
theorem onCallback_glue {s : Impl} {a b c : Callback} (h : pieces.glue a b = some c) :
    (s.onCallback a >>= fun s' ↦ s'.onCallback b).mapError lastError
      = (s.onCallback c).mapError lastError := by
  cases a <;> cases b <;> cases h
  case onMethod.onMethod.refl => simp [onCallback, onMethod, bind, Except.bind]
  case onUrl.onUrl.refl => simp [onCallback, onUrl, bind, Except.bind]
  case onHeaderValue.onHeaderValue.refl => simp [onCallback, onHeaderValue, bind, Except.bind]
  case onHeaderField.onHeaderField.refl a b =>
    rw [onCallback, onCallback, onHeaderField, onHeaderField]
    split
    · rcases s.commitHeader with e | s'
      · rfl
      · simp [onCallback, onHeaderField, bind, Except.bind]
    · rename_i hv
      simp [onCallback, onHeaderField, bind, Except.bind, hv]
  case onBody.onBody.refl a b =>
    simp only [onCallback, onBody]
    by_cases h₁ : s.bodyByteCount + a.length > s.config.maxBodyBytes
    · have h₂ : s.bodyByteCount + (a ++ b).length > s.config.maxBodyBytes := by
        rw [List.length_append]
        omega
      rw [if_pos h₁, if_pos h₂]
      rfl
    · rw [if_neg h₁]
      simp only [bind, Except.bind, List.length_append, Nat.add_assoc, List.append_assoc]
      split <;> rfl

/-- **Cutting never matters.** -/
theorem deliver_coalesce (t : List Callback) (s : Impl) :
    (s.deliver (pieces.coalesce t)).mapError lastError = (s.deliver t).mapError lastError :=
  Gluing.run_coalesce onCallback_glue t s

theorem deliver_eq_ok_of_coalesce {t t' : List Callback} {s q : Impl}
    (ht : pieces.coalesce t = pieces.coalesce t') (h : s.deliver t' = .ok q) :
    s.deliver t = .ok q := by
  have hsame := (deliver_coalesce t s).symm.trans (ht ▸ deliver_coalesce t' s)
  rw [h] at hsame
  rcases hd : s.deliver t with e | q'
  · rw [hd] at hsame
    cases hsame
  · rw [hd] at hsame
    cases hsame
    rfl

theorem deliver_eq_error_of_coalesce {t t' : List Callback} {s e : Impl}
    (ht : pieces.coalesce t = pieces.coalesce t') (h : s.deliver t' = .error e) :
    ∃ e', s.deliver t = .error e' ∧ e'.lastError = e.lastError := by
  have hsame := (deliver_coalesce t s).symm.trans (ht ▸ deliver_coalesce t' s)
  rw [h] at hsame
  rcases hd : s.deliver t with e' | q'
  · rw [hd] at hsame
    exact ⟨e', rfl, Except.error.inj hsame⟩
  · rw [hd] at hsame
    cases hsame

@[simp] theorem deliver_nil (s : Impl) : s.deliver [] = .ok s := rfl

theorem deliver_cons (s : Impl) (c : Callback) (t : List Callback) :
    s.deliver (c :: t) = s.onCallback c >>= fun s' ↦ s'.deliver t := rfl

theorem deliver_append (s : Impl) (t t' : List Callback) :
    s.deliver (t ++ t') = s.deliver t >>= fun s' ↦ s'.deliver t' :=
  Gluing.run_append onCallback t t' s

/-- A trace that fails keeps failing, with the same error, however it goes on. -/
theorem deliver_append_of_error {s e : Impl} {t : List Callback} (h : s.deliver t = .error e)
    (t' : List Callback) : s.deliver (t ++ t') = .error e := by
  rw [deliver_append, h]
  rfl

theorem deliver_append_of_ok {s q : Impl} {t : List Callback} (h : s.deliver t = .ok q)
    (t' : List Callback) : s.deliver (t ++ t') = q.deliver t' := by
  rw [deliver_append, h]
  rfl

/-! ### What every callback respects -/

/-- A failure has said why, a success has left the error flag alone, and the limits stay. -/
def Honest (s : Impl) : Except Impl Impl → Prop
  | .error e => e.hasError = true ∧ e.config = s.config
  | .ok q => q.hasError = s.hasError ∧ q.config = s.config

theorem Honest.bind {s : Impl} {x : Except Impl Impl} {f : Impl → Except Impl Impl}
    (hx : s.Honest x) (hf : ∀ q : Impl, q.Honest (f q)) : s.Honest (x >>= f) := by
  rcases x with e | q
  · exact hx
  · have hq := hf q
    change s.Honest (f q)
    rcases hfq : f q with e | q' <;> rw [hfq] at hq
    · exact ⟨hq.1, hq.2.trans hx.2⟩
    · exact ⟨hq.1.trans hx.1, hq.2.trans hx.2⟩

theorem honest_commitHeader (s : Impl) : s.Honest s.commitHeader := by
  rw [commitHeader]
  split
  · exact ⟨rfl, rfl⟩
  · dsimp only
    split <;> exact ⟨rfl, rfl⟩

theorem honest_onCallback (s : Impl) (c : Callback) : s.Honest (s.onCallback c) := by
  rcases c with _ | _ | piece | _ | info | piece | _
  case onHeaderField =>
    rw [onCallback, onHeaderField]
    split
    · exact s.honest_commitHeader.bind fun q ↦ ⟨rfl, rfl⟩
    · exact ⟨rfl, rfl⟩
  case onHeadersComplete => exact s.honest_commitHeader.bind fun q ↦ ⟨rfl, rfl⟩
  case onBody =>
    rw [onCallback, onBody]
    dsimp only
    split <;> exact ⟨rfl, rfl⟩
  all_goals exact ⟨rfl, rfl⟩

theorem honest_deliver (t : List Callback) : ∀ s : Impl, s.Honest (s.deliver t) := by
  induction t with
  | nil => exact fun s ↦ ⟨rfl, rfl⟩
  | cons c t ih =>
    intro s
    rw [deliver_cons]
    exact (s.honest_onCallback c).bind ih

end HttpParser.Impl

/-! ## Messages -/

/-- A request message as it is on the wire. -/
structure Message where
  method : Bytes
  target : Bytes
  fields : List (Bytes × Bytes)
  info : HeadersInfo
  body : Bytes
  trailers : List (Bytes × Bytes)
  /-- A field name is a token. -/
  names_ne_nil : ∀ f ∈ fields ++ trailers, f.1 ≠ []

/-- The callbacks of one field. -/
def fieldTrace (f : Bytes × Bytes) : List Callback := [.onHeaderField f.1, .onHeaderValue f.2]

namespace Message

/-- The uncut trace of the header section. -/
def headTrace (m : Message) : List Callback :=
  .onMethod m.method :: .onUrl m.target :: m.fields.flatMap fieldTrace ++
    [.onHeadersComplete m.info]

/-- The uncut trace of the body. -/
def bodyTrace (m : Message) : List Callback := if m.body = [] then [] else [.onBody m.body]

/-- The uncut trace of the whole message. -/
def trace (m : Message) : List Callback :=
  m.headTrace ++ (m.bodyTrace ++ (m.trailers.flatMap fieldTrace ++ [.onMessageComplete]))

/-- The request a message is, with `headers` for its header pairs. -/
def parsed {η : Type} (m : Message) (headers : List η) : ParsedRequest η where
  method := m.method
  target := m.target
  versionMajor := m.info.httpMajor
  versionMinor := m.info.httpMinor
  headers := headers
  body := m.body
  upgrade := m.info.upgrade
  keepAlive := m.info.shouldKeepAlive

/-- The message stays within the limits: the last trailer is never counted. -/
def Within (config : ParserConfig) (m : Message) : Prop :=
  m.fields.length + (m.trailers.length - 1) ≤ config.maxHeaderCount ∧
    m.body.length ≤ config.maxBodyBytes

instance (config : ParserConfig) (m : Message) : Decidable (m.Within config) :=
  inferInstanceAs (Decidable (_ ∧ _))

end Message

/-! ## Fields -/

namespace HttpParser.Impl

/-- The pair `f` is held in the buffers. -/
def holding (s : Impl) (f : Bytes × Bytes) : Impl :=
  { s with fieldBuf := f.1, valueBuf := f.2, inValue := true }

/-- No pair is held. -/
def cleared (s : Impl) : Impl := { s with fieldBuf := [], valueBuf := [] }

/-- The pairs have been stored. -/
def stored (s : Impl) (pairs : List (Bytes × Bytes)) : Impl :=
  { s with
    headerStorage := s.headerStorage.append pairs
    headerCount := s.headerCount + pairs.length }

@[simp] theorem stored_nil (s : Impl) : s.stored [] = s := by
  simp [stored]

theorem stored_stored (s : Impl) (ps qs : List (Bytes × Bytes)) :
    (s.stored ps).stored qs = s.stored (ps ++ qs) := by
  simp [stored, GrowingVector.append_append, Nat.add_assoc]

@[simp] theorem commitHeader_cleared (s : Impl) : s.cleared.commitHeader = .ok s.cleared := rfl

theorem commitHeader_holding {s : Impl} {f : Bytes × Bytes} (hf : f.1 ≠ []) :
    (s.holding f).commitHeader =
      if s.headerCount + 1 ≤ s.config.maxHeaderCount then
        .ok { (s.stored [f]).cleared with inValue := true }
      else .error
        { (s.stored [f]).cleared with
          inValue := true
          hasError := true
          lastError := .tooManyHeaders } := by
  rw [commitHeader, if_neg (show (s.holding f).fieldBuf ≠ [] from hf)]
  by_cases hle : s.headerCount + 1 ≤ s.config.maxHeaderCount
  · rw [if_pos hle]
    exact if_neg (Nat.not_lt.mpr hle)
  · rw [if_neg hle]
    exact if_pos (Nat.lt_of_not_le hle)

theorem deliver_fieldTrace_cleared (s : Impl) (f : Bytes × Bytes) :
    s.cleared.deliver (fieldTrace f) = .ok (s.holding f) := by
  rw [fieldTrace, deliver_cons, onCallback, onHeaderField]
  split <;> rfl

theorem onHeaderField_of_inValue {s : Impl} (h : s.inValue = true) (piece : Bytes) :
    s.onHeaderField piece = s.commitHeader >>= fun s' ↦
      .ok { s' with inValue := false, fieldBuf := s'.fieldBuf ++ piece } := if_pos h

theorem deliver_fieldTrace_holding {s : Impl} {f : Bytes × Bytes} (hf : f.1 ≠ [])
    (hle : s.headerCount + 1 ≤ s.config.maxHeaderCount) (g : Bytes × Bytes) :
    (s.holding f).deliver (fieldTrace g) = .ok ((s.stored [f]).holding g) := by
  rw [fieldTrace, deliver_cons, onCallback, onHeaderField_of_inValue rfl, commitHeader_holding hf,
    if_pos hle]
  rfl

theorem deliver_fieldTrace_holding_error {s : Impl} {f : Bytes × Bytes} (hf : f.1 ≠ [])
    (hgt : s.config.maxHeaderCount < s.headerCount + 1) (g : Bytes × Bytes) :
    ∃ e, (s.holding f).deliver (fieldTrace g) = .error e ∧ e.lastError = .tooManyHeaders := by
  rw [fieldTrace, deliver_cons, onCallback, onHeaderField_of_inValue rfl, commitHeader_holding hf,
    if_neg (Nat.not_le.mpr hgt)]
  exact ⟨_, rfl, rfl⟩

/-- A run of fields stores all but the last, which is held. -/
theorem deliver_fields {gs : List (Bytes × Bytes)} : ∀ {s : Impl} {f : Bytes × Bytes},
    (∀ g ∈ f :: gs, g.1 ≠ []) → s.headerCount + gs.length ≤ s.config.maxHeaderCount →
    (s.holding f).deliver (gs.flatMap fieldTrace)
      = .ok ((s.stored (f :: gs).dropLast).holding
          ((f :: gs).getLast (List.cons_ne_nil f gs))) := by
  induction gs with
  | nil =>
    intro s f _ _
    rw [List.flatMap_nil, deliver_nil, List.dropLast_singleton, stored_nil, List.getLast_singleton]
  | cons g gs ih =>
    intro s f hnames hle
    rw [List.length_cons] at hle
    have hhead := deliver_fieldTrace_holding (s := s) (hnames f List.mem_cons_self) (by omega) g
    have htail := ih (s := s.stored [f]) (f := g) (fun x hx ↦ hnames x (List.mem_cons_of_mem f hx))
      (show s.headerCount + 1 + gs.length ≤ s.config.maxHeaderCount by omega)
    rw [List.flatMap_cons, deliver_append_of_ok hhead, htail, stored_stored,
      List.dropLast_cons_of_ne_nil (List.cons_ne_nil g gs),
      List.getLast_cons (List.cons_ne_nil g gs)]
    rfl

theorem deliver_fields_error {gs : List (Bytes × Bytes)} : ∀ {s : Impl} {f : Bytes × Bytes},
    (∀ g ∈ f :: gs, g.1 ≠ []) → s.headerCount ≤ s.config.maxHeaderCount →
    s.config.maxHeaderCount < s.headerCount + gs.length →
    ∃ e, (s.holding f).deliver (gs.flatMap fieldTrace) = .error e ∧
      e.lastError = .tooManyHeaders := by
  induction gs with
  | nil =>
    intro s f _ hroom hgt
    rw [List.length_nil] at hgt
    omega
  | cons g gs ih =>
    intro s f hnames hroom hgt
    rw [List.length_cons] at hgt
    by_cases hle : s.headerCount + 1 ≤ s.config.maxHeaderCount
    · have hhead := deliver_fieldTrace_holding (hnames f List.mem_cons_self) hle g
      rw [List.flatMap_cons, deliver_append_of_ok hhead]
      exact ih (fun x hx ↦ hnames x (List.mem_cons_of_mem f hx)) hle
        (show s.config.maxHeaderCount < s.headerCount + 1 + gs.length by omega)
    · obtain ⟨e, he, hcause⟩ := deliver_fieldTrace_holding_error (hnames f List.mem_cons_self)
        (Nat.lt_of_not_le hle) g
      exact ⟨e, by rw [List.flatMap_cons, deliver_append_of_error he], hcause⟩

theorem cleared_eq_self {s : Impl} (hf : s.fieldBuf = []) (hv : s.valueBuf = []) :
    s.cleared = s := by
  rcases s
  dsimp only at hf hv
  subst hf hv
  rfl

/-- A section of fields that fits, read while no pair is held and ended by `on_headers_complete`'s
commit. -/
theorem deliver_section {s : Impl} {fs : List (Bytes × Bytes)} (hnames : ∀ f ∈ fs, f.1 ≠ [])
    (hle : s.headerCount + fs.length ≤ s.config.maxHeaderCount) :
    (s.cleared.deliver (fs.flatMap fieldTrace) >>= commitHeader)
      = .ok { (s.stored fs).cleared with inValue := s.inValue || decide (fs ≠ []) } := by
  rcases fs with _ | ⟨f, fs⟩
  · rw [List.flatMap_nil, deliver_nil]
    change s.cleared.commitHeader = _
    rw [commitHeader_cleared, stored_nil]
    simp [cleared]
  · rw [List.length_cons] at hle
    have hlen : s.headerCount + (f :: fs).dropLast.length + 1 ≤ s.config.maxHeaderCount := by
      rw [List.length_dropLast, List.length_cons]
      omega
    rw [List.flatMap_cons, deliver_append_of_ok (deliver_fieldTrace_cleared s f),
      deliver_fields hnames (by omega)]
    refine (commitHeader_holding (hnames _ (List.getLast_mem _))).trans ?_
    have hall : (f :: fs).dropLast ++ [(f :: fs).getLast (List.cons_ne_nil f fs)] = f :: fs :=
      List.dropLast_append_getLast _
    refine (if_pos hlen).trans ?_
    rw [stored_stored, hall]
    simp

theorem deliver_section_error {s : Impl} {fs : List (Bytes × Bytes)} (hnames : ∀ f ∈ fs, f.1 ≠ [])
    (hroom : s.headerCount ≤ s.config.maxHeaderCount)
    (hgt : s.config.maxHeaderCount < s.headerCount + fs.length) :
    ∃ e, (s.cleared.deliver (fs.flatMap fieldTrace) >>= commitHeader) = .error e ∧
      e.lastError = .tooManyHeaders := by
  rcases fs with _ | ⟨f, fs⟩
  · rw [List.length_nil] at hgt
    omega
  · rw [List.length_cons] at hgt
    rw [List.flatMap_cons, deliver_append_of_ok (deliver_fieldTrace_cleared s f)]
    by_cases hle : s.headerCount + fs.length ≤ s.config.maxHeaderCount
    · -- only the field that is still held is one too many
      have hlen : ¬s.headerCount + (f :: fs).dropLast.length + 1 ≤ s.config.maxHeaderCount := by
        rw [List.length_dropLast, List.length_cons]
        omega
      rw [deliver_fields hnames hle]
      refine ⟨_, (commitHeader_holding (hnames _ (List.getLast_mem _))).trans (if_neg hlen), rfl⟩
    · obtain ⟨e, he, hcause⟩ := deliver_fields_error hnames hroom (by omega)
      rw [he]
      exact ⟨e, rfl, hcause⟩

/-! ## Sections of a message -/

/-- The request line has been read. -/
def withRequestLine (s : Impl) (m : Message) : Impl :=
  { s with
    methodBuf := s.methodBuf ++ m.method
    targetBuf := s.targetBuf ++ m.target
    pending :=
      { s.pending with method := s.methodBuf ++ m.method, target := s.targetBuf ++ m.target } }

theorem deliver_requestLine (s : Impl) (m : Message) (t : List Callback) :
    s.deliver (.onMethod m.method :: .onUrl m.target :: t) = (s.withRequestLine m).deliver t := rfl

/-- The header section has been read and views of its pairs have been made. -/
def withHead (s : Impl) (m : Message) : Impl :=
  { ((s.withRequestLine m).stored m.fields).cleared with
    inValue := s.inValue || decide (m.fields ≠ [])
    pending :=
      { (s.withRequestLine m).pending with
        headers := (s.headerStorage.append m.fields).refs
        versionMajor := m.info.httpMajor
        versionMinor := m.info.httpMinor
        keepAlive := m.info.shouldKeepAlive
        upgrade := m.info.upgrade } }

theorem deliver_headTrace {s : Impl} (hs : s.Blank) {m : Message}
    (hle : m.fields.length ≤ s.config.maxHeaderCount) :
    s.deliver m.headTrace = .ok (s.withHead m) := by
  have hclear : (s.withRequestLine m).cleared = s.withRequestLine m :=
    cleared_eq_self hs.fieldBuf hs.valueBuf
  have hsec := deliver_section (s := s.withRequestLine m)
    (fun f hf ↦ m.names_ne_nil f (List.mem_append_left _ hf))
    (show s.headerCount + m.fields.length ≤ s.config.maxHeaderCount by rw [hs.headerCount]; omega)
  rw [hclear] at hsec
  rw [Message.headTrace, List.cons_append, List.cons_append, deliver_requestLine, deliver_append]
  rcases hq : (s.withRequestLine m).deliver (m.fields.flatMap fieldTrace) with e | q <;>
    rw [hq] at hsec
  · cases hsec
  · have hcommit : q.commitHeader = _ := hsec
    change q.deliver [.onHeadersComplete m.info] = _
    rw [deliver_cons, onCallback, onHeadersComplete, hcommit]
    rfl

theorem deliver_headTrace_error {s : Impl} (hs : s.Blank) {m : Message}
    (hgt : s.config.maxHeaderCount < m.fields.length) :
    ∃ e, s.deliver m.headTrace = .error e ∧ e.lastError = .tooManyHeaders := by
  have hclear : (s.withRequestLine m).cleared = s.withRequestLine m :=
    cleared_eq_self hs.fieldBuf hs.valueBuf
  obtain ⟨e, he, hcause⟩ := deliver_section_error (s := s.withRequestLine m)
    (fun f hf ↦ m.names_ne_nil f (List.mem_append_left _ hf))
    (show s.headerCount ≤ s.config.maxHeaderCount by rw [hs.headerCount]; omega)
    (show s.config.maxHeaderCount < s.headerCount + m.fields.length by rw [hs.headerCount]; omega)
  rw [hclear] at he
  refine ⟨e, ?_, hcause⟩
  rw [Message.headTrace, List.cons_append, List.cons_append, deliver_requestLine, deliver_append]
  rcases hq : (s.withRequestLine m).deliver (m.fields.flatMap fieldTrace) with e' | q <;>
    rw [hq] at he
  · exact he
  · have hcommit : q.commitHeader = .error e := he
    change q.deliver [.onHeadersComplete m.info] = _
    rw [deliver_cons, onCallback, onHeadersComplete, hcommit]
    rfl

/-- The body bytes have been copied. -/
def withBody (s : Impl) (body : Bytes) : Impl :=
  { s with bodyByteCount := s.bodyByteCount + body.length, chunkBuf := s.chunkBuf ++ body }

theorem deliver_onBody {s : Impl} {body : Bytes}
    (hle : s.bodyByteCount + body.length ≤ s.config.maxBodyBytes) :
    s.deliver [.onBody body] = .ok (s.withBody body) := by
  rw [deliver_cons, onCallback, onBody]
  exact congrArg (· >>= fun s' ↦ deliver s' []) (if_neg (Nat.not_lt.mpr hle))

theorem deliver_onBody_error {s : Impl} {body : Bytes}
    (hgt : s.config.maxBodyBytes < s.bodyByteCount + body.length) :
    ∃ e, s.deliver [.onBody body] = .error e ∧ e.lastError = .tooLarge := by
  refine ⟨{ s with
    bodyByteCount := s.bodyByteCount + body.length
    hasError := true
    lastError := .tooLarge }, ?_, rfl⟩
  rw [deliver_cons, onCallback, onBody]
  exact congrArg (· >>= fun s' ↦ deliver s' []) (if_pos hgt)

theorem deliver_bodyTrace {s : Impl} {m : Message}
    (hle : s.bodyByteCount + m.body.length ≤ s.config.maxBodyBytes) :
    s.deliver m.bodyTrace = .ok (s.withBody m.body) := by
  rw [Message.bodyTrace]
  split
  · rename_i hempty
    rw [deliver_nil, withBody, hempty, List.length_nil, List.append_nil]
    rfl
  · exact deliver_onBody hle

theorem deliver_bodyTrace_error {s : Impl} {m : Message}
    (hroom : s.bodyByteCount ≤ s.config.maxBodyBytes)
    (hgt : s.config.maxBodyBytes < s.bodyByteCount + m.body.length) :
    ∃ e, s.deliver m.bodyTrace = .error e ∧ e.lastError = .tooLarge := by
  rw [Message.bodyTrace]
  split
  · rename_i hempty
    rw [hempty, List.length_nil] at hgt
    omega
  · exact deliver_onBody_error hgt

theorem deliver_trailers {s : Impl} {ts : List (Bytes × Bytes)} (hnames : ∀ f ∈ ts, f.1 ≠ [])
    (hle : s.headerCount + (ts.length - 1) ≤ s.config.maxHeaderCount) :
    ∃ q, s.cleared.deliver (ts.flatMap fieldTrace) = .ok q ∧ q.pending = s.pending ∧
      q.chunkBuf = s.chunkBuf ∧ q.headerStorage = s.headerStorage.append ts.dropLast := by
  rcases ts with _ | ⟨t, ts⟩
  · exact ⟨s.cleared, rfl, rfl, rfl, (GrowingVector.append_nil _).symm⟩
  · refine ⟨(s.stored (t :: ts).dropLast).holding ((t :: ts).getLast (List.cons_ne_nil t ts)), ?_,
      rfl, rfl, rfl⟩
    rw [List.flatMap_cons, deliver_append_of_ok (deliver_fieldTrace_cleared s t)]
    exact deliver_fields hnames hle

theorem deliver_trailers_error {s : Impl} {ts : List (Bytes × Bytes)}
    (hnames : ∀ f ∈ ts, f.1 ≠ []) (hroom : s.headerCount ≤ s.config.maxHeaderCount)
    (hgt : s.config.maxHeaderCount < s.headerCount + (ts.length - 1)) :
    ∃ e, s.cleared.deliver (ts.flatMap fieldTrace) = .error e ∧ e.lastError = .tooManyHeaders := by
  rcases ts with _ | ⟨t, ts⟩
  · rw [List.length_nil] at hgt
    omega
  · rw [List.length_cons, Nat.add_sub_cancel] at hgt
    rw [List.flatMap_cons, deliver_append_of_ok (deliver_fieldTrace_cleared s t)]
    exact deliver_fields_error hnames hroom hgt

/-- **What becomes of a message within the limits.** The header section is stored first, and its
views are made there and then; every trailer but the last is stored behind it. -/
theorem deliver_trace {s : Impl} (hs : s.Blank) {m : Message} (hm : m.Within s.config) :
    ∃ q, s.deliver m.trace = .ok q ∧ q.complete = true ∧
      { q.pending with body := q.chunkBuf }
        = m.parsed (s.headerStorage.append m.fields).refs ∧
      q.headerStorage = (s.headerStorage.append m.fields).append m.trailers.dropLast := by
  obtain ⟨hcount, hbody⟩ := hm
  have hhead := deliver_headTrace hs (m := m) (by omega)
  have hbodyTrace : (s.withHead m).deliver m.bodyTrace = .ok ((s.withHead m).withBody m.body) :=
    deliver_bodyTrace (show s.bodyByteCount + _ ≤ s.config.maxBodyBytes by
      rw [hs.bodyByteCount, Nat.zero_add]
      exact hbody)
  obtain ⟨q, hq, hpending, hchunk, hstorage⟩ :=
    deliver_trailers (s := (s.withHead m).withBody m.body)
      (fun f hf ↦ m.names_ne_nil f (List.mem_append_right _ hf))
      (show s.headerCount + m.fields.length + _ ≤ s.config.maxHeaderCount by
        rw [hs.headerCount, Nat.zero_add]
        exact hcount)
  have hclear : ((s.withHead m).withBody m.body).cleared = (s.withHead m).withBody m.body := rfl
  rw [hclear] at hq
  refine ⟨q.onMessageComplete, ?_, rfl, ?_, hstorage⟩
  · rw [Message.trace, deliver_append_of_ok hhead, deliver_append_of_ok hbodyTrace,
      deliver_append_of_ok hq]
    rfl
  · change { q.pending with body := q.chunkBuf } = _
    rw [hpending, hchunk]
    simp only [withBody, withHead, withRequestLine, Message.parsed, hs.pending, hs.methodBuf,
      hs.targetBuf, List.nil_append, ParsedRequest.mk.injEq, true_and, and_true]
    exact congrArg (· ++ m.body) hs.chunkBuf

theorem deliver_trace_error {s : Impl} (hs : s.Blank) {m : Message} (hm : ¬m.Within s.config) :
    ∃ e, s.deliver m.trace = .error e ∧
      (e.lastError = .tooManyHeaders ∨ e.lastError = .tooLarge) := by
  have hfieldCount : (s.withHead m).headerCount = m.fields.length := by
    change s.headerCount + _ = _
    rw [hs.headerCount, Nat.zero_add]
  have hbodyCount : (s.withHead m).bodyByteCount = 0 := hs.bodyByteCount
  rw [Message.trace]
  -- the first section that exceeds its limit is where the parser stops
  by_cases hfields : m.fields.length ≤ s.config.maxHeaderCount
  · rw [deliver_append_of_ok (deliver_headTrace hs hfields)]
    by_cases hbody : m.body.length ≤ s.config.maxBodyBytes
    · have hle : (s.withHead m).bodyByteCount + m.body.length
          ≤ (s.withHead m).config.maxBodyBytes := by
        rw [hbodyCount, Nat.zero_add]
        exact hbody
      rw [deliver_append_of_ok (deliver_bodyTrace hle)]
      obtain ⟨e, he, hcause⟩ := deliver_trailers_error (s := (s.withHead m).withBody m.body)
        (fun f hf ↦ m.names_ne_nil f (List.mem_append_right _ hf))
        (show (s.withHead m).headerCount ≤ s.config.maxHeaderCount by rwa [hfieldCount])
        (show s.config.maxHeaderCount < (s.withHead m).headerCount + (m.trailers.length - 1) by
          rw [hfieldCount]
          by_contra hc
          exact hm ⟨Nat.not_lt.mp hc, hbody⟩)
      exact ⟨e, deliver_append_of_error he _, Or.inl hcause⟩
    · obtain ⟨e, he, hcause⟩ := deliver_bodyTrace_error (s := s.withHead m) (m := m)
        (by rw [hbodyCount]; exact Nat.zero_le _)
        (by rw [hbodyCount, Nat.zero_add]; exact Nat.lt_of_not_le hbody)
      exact ⟨e, deliver_append_of_error he _, Or.inr hcause⟩
  · obtain ⟨e, he, hcause⟩ := deliver_headTrace_error hs (Nat.lt_of_not_le hfields)
    exact ⟨e, deliver_append_of_error he _, Or.inl hcause⟩

end HttpParser.Impl

/-! ## Feeding reads -/

namespace HttpParser

variable {σ : Type} {L : Llhttp σ}

/-- The parser after it has returned the request it held in `q`. -/
def afterReturn (next : σ) (q : Impl) : HttpParser σ :=
  ⟨some next, { q with pending := { q.pending with body := q.chunkBuf, headers := [] } }⟩

theorem feed_of_ok {p : HttpParser σ} {st next : σ} {data : Bytes} {t : List Callback} {s : Impl}
    (hp : p.parser = some st) (herr : p.impl.hasError = false)
    (h : L.execute st data = (t, .ok next)) (hs : p.impl.deliver t = .ok s) :
    p.feed L data = (.error .incomplete, ⟨some next, s⟩) := by
  have hhon := Impl.honest_deliver t p.impl
  rw [hs] at hhon
  simp only [feed, hp, h, hs, finishFeed, hhon.1, herr, Bool.false_eq_true, if_false]

theorem feed_of_paused {p : HttpParser σ} {st next : σ} {data unread : Bytes} {t : List Callback}
    {q : Impl} (hp : p.parser = some st) (herr : p.impl.hasError = false)
    (h : L.execute st data = (t, .paused next unread)) (hq : p.impl.deliver t = .ok q)
    (hcomplete : q.complete = true) :
    p.feed L data = (.ok { q.pending with body := q.chunkBuf }, afterReturn next q) := by
  have hhon := Impl.honest_deliver t p.impl
  rw [hq] at hhon
  simp only [feed, hp, h, hq, finishFeed, hhon.1, herr, hcomplete, Bool.false_eq_true, if_false,
    if_true, afterReturn]

theorem feed_of_error {p : HttpParser σ} {st : σ} {data : Bytes} {e : Impl}
    (hp : p.parser = some st) (he : p.impl.deliver (L.execute st data).1 = .error e) :
    p.feed L data = (.error e.lastError, ⟨none, e⟩) := by
  have hhon := Impl.honest_deliver (L.execute st data).1 p.impl
  rw [he] at hhon
  have herr : e.hasError = true := hhon.1
  simp only [feed, hp, he, finishFeed, herr, if_true]
  rfl

theorem config_finishFeed (s : Impl) (result : Llhttp.Result σ) :
    (finishFeed s result).2.impl.config = s.config := by
  unfold finishFeed
  split
  · rfl
  · split
    · split <;> rfl
    · rfl
    · rfl

theorem config_feed (p : HttpParser σ) (data : Bytes) :
    (p.feed L data).2.impl.config = p.impl.config := by
  rw [feed]
  split
  · exact config_finishFeed _ _
  · rename_i st _
    have hhon := Impl.honest_deliver (L.execute st data).1 p.impl
    rcases hs : p.impl.deliver (L.execute st data).1 with e | s <;> rw [hs] at hhon
    · exact (config_finishFeed _ _).trans hhon.2
    · exact (config_finishFeed _ _).trans hhon.2

/-- A run of llhttp to the end of a message that no callback objects to yields the request. -/
theorem feedReads_of_completes {st : σ} {reads : List Bytes} {t : List Callback} {unread : Bytes}
    (hrun : L.Completes st reads t unread) : ∀ {p : HttpParser σ} {q : Impl},
    p.parser = some st → p.impl.hasError = false → p.impl.deliver t = .ok q →
    q.complete = true →
    ∃ next, p.feedReads L reads
      = (.ok { q.pending with body := q.chunkBuf }, afterReturn next q, []) := by
  induction hrun with
  | @last st data t next unread h =>
    intro p q hp herr hq hcomplete
    refine ⟨next, ?_⟩
    rw [feedReads, feed_of_paused hp herr h hq hcomplete]
  | @more st data callbacks next reads t unread h _ ih =>
    intro p q hp herr hq hcomplete
    rw [Impl.deliver_append] at hq
    rcases hs : p.impl.deliver callbacks with e | s <;> rw [hs] at hq
    · cases hq
    · have hhon := Impl.honest_deliver callbacks p.impl
      rw [hs] at hhon
      obtain ⟨next', hnext'⟩ := ih (p := ⟨some next, s⟩) rfl (hhon.1.trans herr) hq hcomplete
      refine ⟨next', ?_⟩
      rw [feedReads, feed_of_ok hp herr h hs]
      exact hnext'

theorem runs_of_completes {st : σ} {reads : List Bytes} {t : List Callback} {unread : Bytes}
    (hrun : L.Completes st reads t unread) : L.Runs st reads t := by
  induction hrun with
  | last h => exact Llhttp.Runs.last h
  | more h _ ih => exact Llhttp.Runs.more h ih

/-- **A message read from a fresh parser**, however it is cut and split, within the limits. -/
theorem feedReads_message {p : HttpParser σ} (hp : p.Fresh L) {m : Message}
    (hm : m.Within p.impl.config) {reads : List Bytes} {t : List Callback} {unread : Bytes}
    (hrun : L.Completes L.init reads t unread) (ht : pieces.coalesce t = pieces.coalesce m.trace) :
    ∃ p', p.feedReads L reads
        = (.ok (m.parsed (p.impl.headerStorage.append m.fields).refs), p', []) ∧
      p'.impl.headerStorage
        = (p.impl.headerStorage.append m.fields).append m.trailers.dropLast ∧
      p'.impl.config = p.impl.config := by
  obtain ⟨q, hq, hcomplete, hparsed, hstorage⟩ := Impl.deliver_trace hp.blank hm
  have hconfig := Impl.honest_deliver m.trace p.impl
  rw [hq] at hconfig
  obtain ⟨next, hnext⟩ := feedReads_of_completes hrun hp.parser hp.blank.hasError
    (Impl.deliver_eq_ok_of_coalesce ht hq) hcomplete
  refine ⟨afterReturn next q, ?_, hstorage, hconfig.2⟩
  rw [hnext, hparsed]

theorem feedReads_of_error {st : σ} {reads : List Bytes} {t : List Callback}
    (hrun : L.Runs st reads t) : ∀ {p : HttpParser σ} {e : Impl},
    p.parser = some st → p.impl.hasError = false → p.impl.deliver t = .error e →
    e.lastError ≠ .incomplete →
    ∃ p' rest, p.feedReads L reads = (.error e.lastError, p', rest) := by
  have hstop : ∀ {p : HttpParser σ} {e : Impl} {data : Bytes} {reads : List Bytes},
      e.lastError ≠ .incomplete → p.feed L data = (.error e.lastError, ⟨none, e⟩) →
      p.feedReads L (data :: reads) = (.error e.lastError, ⟨none, e⟩, reads) := by
    intro p e data reads hne hfeed
    rw [feedReads, hfeed]
    rcases hcause : e.lastError <;> first | rfl | exact absurd hcause hne
  induction hrun with
  | last h =>
    intro p e hp herr he hne
    exact ⟨_, _, hstop hne (feed_of_error hp (by rw [h]; exact he))⟩
  | @more st data callbacks next reads t h _ ih =>
    intro p e hp herr he hne
    rw [Impl.deliver_append] at he
    rcases hs : p.impl.deliver callbacks with e' | s <;> rw [hs] at he
    · cases he
      exact ⟨_, _, hstop hne (feed_of_error hp (by rw [h]; exact hs))⟩
    · have hhon := Impl.honest_deliver callbacks p.impl
      rw [hs] at hhon
      obtain ⟨p', rest, hrest⟩ := ih (p := ⟨some next, s⟩) rfl (hhon.1.trans herr) he hne
      refine ⟨p', rest, ?_⟩
      rw [feedReads, feed_of_ok hp herr h hs]
      exact hrest

end HttpParser

end Aevox
