import Aevox.Http.HeaderViews

/-!
# Limits of the parser

`on_body` counts the bytes of a body before it copies them, so the copied bytes never exceed
`max_body_bytes`, not even after the error it reports. A field is counted when it is committed: by
the name of the next field, or by the end of the header section. Nothing ends a trailer section, so
the last trailer is never counted.

What a parser has *seen* is what it has counted and the pair it holds. Every field of a message adds
one to it (`Advances`), whatever was fed before and whether or not the parser has been reset since.
-/

namespace Aevox

/-- A message has no more header and trailer fields than are allowed. -/
def Message.FieldsFit (config : ParserConfig) (m : Message) : Prop :=
  m.fields.length + m.trailers.length ≤ config.maxHeaderCount

namespace HttpParser

/-! ## Runs -/

section Runs

variable {σ : Type} (L : Llhttp σ)

/-- The callbacks llhttp makes when the parser is fed `data`. -/
def reported (p : HttpParser σ) (data : Bytes) : List Callback :=
  match p.parser with
  | none => []
  | some st => (L.execute st data).1

/-- What feeding and resetting make of a new parser, with the callbacks since the last request it
has returned or its last reset. -/
inductive Reaches (config : ParserConfig) : HttpParser σ → List Callback → Prop
  | create (growth : Growth) : Reaches config (create L config growth) []
  | feed {p t e} (h : Reaches config p t) (data : Bytes) (he : (p.feed L data).1 = .error e) :
      Reaches config (p.feed L data).2 (t ++ p.reported L data)
  | complete {p t r} (h : Reaches config p t) (data : Bytes) (hr : (p.feed L data).1 = .ok r) :
      Reaches config (p.feed L data).2 []
  | reset {p t} (h : Reaches config p t) : Reaches config (p.reset L) []

/-- The states between the callbacks of a `feed`. -/
def Visits (p : HttpParser σ) (data : Bytes) (s : Impl) : Prop :=
  ∃ t, t <+: p.reported L data ∧ (p.impl.deliver t = .ok s ∨ p.impl.deliver t = .error s)

/-- Feeding `data` returns the request of a message. -/
def Returns (p : HttpParser σ) (t : List Callback) (data : Bytes) (m : Message) : Prop :=
  (∃ r, (p.feed L data).1 = .ok r) ∧
    pieces.coalesce (t ++ p.reported L data) = pieces.coalesce m.trace

/-- The copied body stays within its limit while `data` is fed. -/
def KeepsBody (config : ParserConfig) (p : HttpParser σ) (data : Bytes) : Prop :=
  ∀ s, p.Visits L data s → s.chunkBuf.length ≤ config.maxBodyBytes

end Runs

namespace Impl

/-! ## What callbacks preserve -/

/-- What holds of the state a callback leaves, whether or not it reports an error. -/
def Leaves (P : Impl → Prop) : Except Impl Impl → Prop
  | .ok s => P s
  | .error s => P s

theorem Leaves.bind {P : Impl → Prop} {x : Except Impl Impl} {f : Impl → Except Impl Impl}
    (hx : Leaves P x) (hf : ∀ s, P s → Leaves P (f s)) : Leaves P (x >>= f) := by
  rcases x with e | s
  · exact hx
  · exact hf s hx

/-- What a callback leaves true, whether or not it reports an error, all of them do. -/
theorem leaves_deliver {P : Impl → Prop}
    (hP : ∀ {s : Impl}, P s → ∀ c, Leaves P (s.onCallback c)) (t : List Callback) :
    ∀ {s : Impl}, P s → Leaves P (s.deliver t) := by
  induction t with
  | nil => exact fun hs ↦ hs
  | cons c t ih =>
    intro s hs
    rw [deliver_cons]
    exact (hP hs c).bind fun _ h ↦ ih h

/-- What a callback preserves unless it reports an error, all of them do. -/
theorem preserved_deliver {P : Impl → Prop}
    (hP : ∀ {s q : Impl} {c : Callback}, P s → s.onCallback c = .ok q → P q)
    (t : List Callback) : ∀ {s q : Impl}, P s → s.deliver t = .ok q → P q := by
  induction t with
  | nil =>
    intro s q hs h
    rwa [← Except.ok.inj h]
  | cons c t ih =>
    intro s q hs h
    rw [deliver_cons] at h
    rcases hc : s.onCallback c with e | s' <;> rw [hc] at h
    · cases h
    · exact ih (hP hs hc) h

/-! ## Bodies -/

/-- The copied bytes have been counted and are within the limit. -/
def BodyBounded (s : Impl) : Prop :=
  s.chunkBuf.length ≤ s.bodyByteCount ∧ s.chunkBuf.length ≤ s.config.maxBodyBytes

theorem bodyBounded_commitHeader {s : Impl} (hs : s.BodyBounded) :
    Leaves BodyBounded s.commitHeader := by
  rw [commitHeader]
  split
  · exact hs
  · dsimp only
    split <;> exact hs

/-- No callback copies what it has not counted. -/
theorem bodyBounded_onCallback {s : Impl} (hs : s.BodyBounded) (c : Callback) :
    Leaves BodyBounded (s.onCallback c) := by
  rcases c with _ | _ | piece | _ | info | piece | _
  case onHeaderField =>
    rw [onCallback, onHeaderField]
    split
    · exact (bodyBounded_commitHeader hs).bind fun _ h ↦ h
    · exact hs
  case onHeadersComplete => exact (bodyBounded_commitHeader hs).bind fun _ h ↦ h
  case onBody =>
    obtain ⟨hcount, hmax⟩ := hs
    rw [onCallback, onBody]
    dsimp only
    split
    · exact ⟨Nat.le_trans hcount (Nat.le_add_right _ _), hmax⟩
    · have hlen : (s.chunkBuf ++ piece).length ≤ s.bodyByteCount + piece.length := by
        rw [List.length_append]
        exact Nat.add_le_add_right hcount _
      exact ⟨hlen, Nat.le_trans hlen (Nat.not_lt.mp ‹_›)⟩
  all_goals exact hs

/-! ## Fields -/

/-- No more fields have been counted than are allowed. -/
def CountBounded (s : Impl) : Prop := s.headerCount ≤ s.config.maxHeaderCount

/-- The fields that have been counted, and the one that is held. -/
def seen (s : Impl) : ℕ := s.headerCount + if s.fieldBuf = [] then 0 else 1

theorem seen_le (s : Impl) : s.seen ≤ s.headerCount + 1 := by
  rw [seen]
  split <;> omega

theorem of_commitHeader {s q : Impl} (h : s.commitHeader = .ok q) :
    q.fieldBuf = [] ∧ q.headerCount = s.seen ∧ q.inValue = s.inValue ∧
      (s.CountBounded → q.CountBounded) := by
  rw [commitHeader] at h
  rw [seen]
  split at h
  · rename_i hfield
    rw [← Except.ok.inj h, if_pos hfield]
    exact ⟨hfield, rfl, rfl, id⟩
  · rename_i hfield
    dsimp only at h
    rw [if_neg hfield]
    split at h
    · cases h
    · rw [← Except.ok.inj h]
      exact ⟨rfl, rfl, rfl, fun _ ↦ Nat.not_lt.mp ‹_›⟩

theorem countBounded_onCallback {s q : Impl} {c : Callback} (hs : s.CountBounded)
    (h : s.onCallback c = .ok q) : q.CountBounded := by
  rcases c with _ | _ | piece | _ | info | piece | _
  case onHeaderField =>
    rw [onCallback, onHeaderField] at h
    split at h
    · rcases hcommit : s.commitHeader with e | s' <;> rw [hcommit] at h
      · cases h
      · rw [← Except.ok.inj h]
        exact (of_commitHeader hcommit).2.2.2 hs
    · rw [← Except.ok.inj h]
      exact hs
  case onHeadersComplete =>
    rw [onCallback, onHeadersComplete] at h
    rcases hcommit : s.commitHeader with e | s' <;> rw [hcommit] at h
    · cases h
    · rw [← Except.ok.inj h]
      exact (of_commitHeader hcommit).2.2.2 hs
  case onBody =>
    rw [onCallback, onBody] at h
    dsimp only at h
    split at h
    · cases h
    · rw [← Except.ok.inj h]
      exact hs
  all_goals
    rw [← Except.ok.inj h]
    exact hs

/-- Between the two states `n` fields have come in. -/
structure Advances (n : ℕ) (s q : Impl) : Prop where
  seen : n ≤ q.seen
  more : s.inValue = true → s.seen + n ≤ q.seen
  inValue : s.inValue = true ∨ n ≠ 0 → q.inValue = true

theorem Advances.trans {n k : ℕ} {s q r : Impl} (h : Advances n s q) (h' : Advances k q r) :
    Advances (n + k) s r := by
  constructor
  · by_cases hn : n = 0
    · rw [hn, Nat.zero_add]
      exact h'.seen
    · exact Nat.le_trans (Nat.add_le_add_right h.seen k) (h'.more (h.inValue (Or.inr hn)))
  · intro hs
    calc s.seen + (n + k) = s.seen + n + k := (Nat.add_assoc _ _ _).symm
      _ ≤ q.seen + k := Nat.add_le_add_right (h.more hs) k
      _ ≤ r.seen := h'.more (h.inValue (Or.inl hs))
  · intro hs
    apply h'.inValue
    by_cases hn : n = 0
    · exact hs.imp (fun hs ↦ h.inValue (Or.inl hs)) (by omega)
    · exact Or.inl (h.inValue (Or.inr hn))

theorem Advances.of_same {s q : Impl} (hseen : q.seen = s.seen) (hvalue : q.inValue = s.inValue) :
    Advances 0 s q where
  seen := Nat.zero_le _
  more _ := Nat.le_of_eq hseen.symm
  inValue h := hvalue.trans (h.resolve_right (fun hne ↦ hne rfl))

/-- **A field is seen.** -/
theorem advances_fieldTrace {s q : Impl} {f : Bytes × Bytes} (hf : f.1 ≠ [])
    (h : s.deliver (fieldTrace f) = .ok q) : Advances 1 s q := by
  rw [fieldTrace, deliver_cons, onCallback, onHeaderField] at h
  -- the name follows a value, or is put behind a name without one
  split at h
  · rcases hcommit : s.commitHeader with e | s' <;> rw [hcommit] at h
    · cases h
    · obtain ⟨hfield, hcount, -, -⟩ := of_commitHeader hcommit
      have hq : q.seen = s.seen + 1 := by
        rw [← Except.ok.inj h, ← hcount]
        exact congrArg (s'.headerCount + ·) (if_neg (List.append_ne_nil_of_right_ne_nil _ hf))
      rw [← Except.ok.inj h] at hq ⊢
      exact ⟨by omega, fun _ ↦ Nat.le_of_eq hq.symm, fun _ ↦ rfl⟩
  · have hq : q.seen = s.headerCount + 1 := by
      rw [← Except.ok.inj h]
      exact congrArg (s.headerCount + ·) (if_neg (List.append_ne_nil_of_right_ne_nil _ hf))
    rw [← Except.ok.inj h] at hq ⊢
    exact ⟨by omega, fun hs ↦ absurd hs ‹_›, fun _ ↦ rfl⟩

theorem advances_section {fs : List (Bytes × Bytes)} : ∀ {s q : Impl}, (∀ f ∈ fs, f.1 ≠ []) →
    s.deliver (fs.flatMap fieldTrace) = .ok q → Advances fs.length s q := by
  induction fs with
  | nil =>
    intro s q _ h
    rw [← Except.ok.inj h]
    exact Advances.of_same rfl rfl
  | cons f fs ih =>
    intro s q hfs h
    rw [List.flatMap_cons, deliver_append] at h
    rcases hfield : s.deliver (fieldTrace f) with e | s' <;> rw [hfield] at h
    · cases h
    · have hfirst := advances_fieldTrace (hfs f List.mem_cons_self) hfield
      have hrest := ih (fun g hg ↦ hfs g (List.mem_cons_of_mem f hg)) h
      rw [List.length_cons, Nat.add_comm]
      exact hfirst.trans hrest

/-- The end of the header section counts everything that has been seen. -/
theorem advances_headTrace {s q : Impl} {m : Message} (h : s.deliver m.headTrace = .ok q) :
    Advances m.fields.length s q ∧ q.fieldBuf = [] := by
  rw [Message.headTrace, List.cons_append, List.cons_append, deliver_requestLine,
    deliver_append] at h
  have hline : Advances 0 s (s.withRequestLine m) := Advances.of_same rfl rfl
  rcases hsection : (s.withRequestLine m).deliver (m.fields.flatMap fieldTrace) with e | s₁ <;>
    rw [hsection] at h
  · cases h
  · have hfields := advances_section (fun f hf ↦ m.names_ne_nil f (List.mem_append_left _ hf))
      hsection
    have h : s₁.deliver [.onHeadersComplete m.info] = .ok q := h
    rw [deliver_cons, onCallback, onHeadersComplete] at h
    rcases hcommit : s₁.commitHeader with e | s₂ <;> rw [hcommit] at h
    · cases h
    · obtain ⟨hfield, hcount, hvalue, -⟩ := of_commitHeader hcommit
      have hsame : s₂.seen = s₁.seen := by rw [seen, if_pos hfield, Nat.add_zero, hcount]
      rw [← Except.ok.inj h]
      refine ⟨?_, hfield⟩
      have hall := (hline.trans hfields).trans (Advances.of_same (q := s₂) hsame hvalue)
      rw [Nat.zero_add, Nat.add_zero] at hall
      exact ⟨hall.seen, hall.more, hall.inValue⟩

theorem advances_bodyTrace {s q : Impl} {m : Message} (h : s.deliver m.bodyTrace = .ok q) :
    Advances 0 s q ∧ q.fieldBuf = s.fieldBuf := by
  rw [Message.bodyTrace] at h
  split at h
  · rw [← Except.ok.inj h]
    exact ⟨Advances.of_same rfl rfl, rfl⟩
  · rw [deliver_cons, onCallback, onBody] at h
    dsimp only at h
    split at h
    · cases h
    · rw [← Except.ok.inj h]
      exact ⟨Advances.of_same rfl rfl, rfl⟩

/-- **All fields of a message are seen**, and without trailers none is held at its end. -/
theorem advances_trace {s q : Impl} {m : Message} (h : s.deliver m.trace = .ok q) :
    m.fields.length + m.trailers.length ≤ q.seen ∧ (m.trailers = [] → q.fieldBuf = []) := by
  rw [Message.trace, deliver_append] at h
  rcases hhead : s.deliver m.headTrace with e | s₁ <;> rw [hhead] at h
  · cases h
  have h : s₁.deliver (m.bodyTrace ++ (m.trailers.flatMap fieldTrace ++ [.onMessageComplete])) =
    .ok q := h
  rw [deliver_append] at h
  rcases hbody : s₁.deliver m.bodyTrace with e | s₂ <;> rw [hbody] at h
  · cases h
  have h : s₂.deliver (m.trailers.flatMap fieldTrace ++ [.onMessageComplete]) = .ok q := h
  rw [deliver_append] at h
  rcases htrailers : s₂.deliver (m.trailers.flatMap fieldTrace) with e | s₃ <;>
    rw [htrailers] at h
  · cases h
  obtain ⟨hfields, hempty⟩ := advances_headTrace hhead
  obtain ⟨hquiet, hsame⟩ := advances_bodyTrace hbody
  have hmore := advances_section (fun f hf ↦ m.names_ne_nil f (List.mem_append_right _ hf))
    htrailers
  rw [← Except.ok.inj h]
  refine ⟨((hfields.trans hquiet).trans hmore).seen, fun hnone ↦ ?_⟩
  rw [hnone] at htrailers
  rw [Except.ok.inj htrailers] at hsame
  exact hsame.trans hempty

end Impl

/-! ## Reachable parsers -/

variable {σ : Type} {L : Llhttp σ} {config : ParserConfig} {p : HttpParser σ} {t : List Callback}

/-- What is known of a parser that has been used in any way: its limits, its body, and, unless it
has failed, that the callbacks have brought it here from within the limits. -/
structure Sound (config : ParserConfig) (p : HttpParser σ) (t : List Callback) : Prop where
  config : p.impl.config = config
  body : p.impl.BodyBounded
  count : p.impl.hasError = false → ∃ s : Impl, s.CountBounded ∧ s.deliver t = .ok p.impl

theorem sound_of_blank (hconfig : p.impl.config = config) (hblank : p.impl.Blank) :
    p.Sound config [] where
  config := hconfig
  body := by
    rw [Impl.BodyBounded, hblank.chunkBuf]
    exact ⟨Nat.zero_le _, Nat.zero_le _⟩
  count _ := by
    refine ⟨p.impl, ?_, rfl⟩
    rw [Impl.CountBounded, hblank.headerCount]
    exact Nat.zero_le _

theorem feed_eq (p : HttpParser σ) (data : Bytes) : ∃ s result,
    p.feed L data = finishFeed s result ∧
      (p.impl.deliver (p.reported L data) = .ok s ∨
        p.impl.deliver (p.reported L data) = .error s) := by
  rw [feed, reported]
  cases p.parser with
  | none => exact ⟨p.impl, .error, rfl, Or.inl rfl⟩
  | some st =>
    dsimp only
    rcases p.impl.deliver (L.execute st data).1 with s | s
    · exact ⟨s, .error, rfl, Or.inr rfl⟩
    · exact ⟨s, (L.execute st data).2, rfl, Or.inl rfl⟩

theorem impl_of_finishFeed_error {s : Impl} {result : Llhttp.Result σ} {e : ParseError}
    (h : (finishFeed s result).1 = .error e) : (finishFeed s result).2.impl = s := by
  unfold finishFeed at h ⊢
  split
  · rfl
  · rw [if_neg ‹_›] at h
    split
    · dsimp only at h
      split
      · rw [if_pos ‹_›] at h
        cases h
      · rfl
    · rfl
    · rfl

theorem impl_of_finishFeed_ok {s : Impl} {result : Llhttp.Result σ} {r : ParsedRequest HeaderView}
    (h : (finishFeed s result).1 = .ok r) : s.hasError = false ∧
      (finishFeed s result).2.impl =
        { s with pending := { s.pending with body := s.chunkBuf, headers := [] } } := by
  unfold finishFeed at h ⊢
  split
  · rw [if_pos ‹_›] at h
    cases h
  · rw [if_neg ‹_›] at h
    refine ⟨Bool.not_eq_true _ ▸ ‹¬s.hasError = true›, ?_⟩
    split
    · dsimp only at h
      split
      · rfl
      · rw [if_neg ‹_›] at h
        cases h
    · cases h
    · cases h

theorem headers_of_finishFeed_ok {s : Impl} {result : Llhttp.Result σ}
    {r : ParsedRequest HeaderView} (h : (finishFeed s result).1 = .ok r) :
    r.headers = s.pending.headers := by
  unfold finishFeed at h
  split at h
  · cases h
  · split at h
    · dsimp only at h
      split at h
      · rw [← Except.ok.inj h]
      · cases h
    · cases h
    · cases h

theorem Sound.exists_deliver (h : p.Sound config t) {data : Bytes} {s : Impl}
    (hs : p.impl.deliver (p.reported L data) = .ok s) (herror : s.hasError = false) :
    ∃ s₀ : Impl, s₀.CountBounded ∧ s₀.deliver (t ++ p.reported L data) = .ok s := by
  have hhonest := Impl.honest_deliver (p.reported L data) p.impl
  rw [hs] at hhonest
  obtain ⟨s₀, hbound, hs₀⟩ := h.count (hhonest.1.symm.trans herror)
  exact ⟨s₀, hbound, (Impl.deliver_append_of_ok hs₀ _).trans hs⟩

/-- **What is known survives every call.** -/
theorem Reaches.sound (h : Reaches L config p t) : p.Sound config t := by
  induction h with
  | create growth => exact sound_of_blank rfl (fresh_create L config growth).blank
  | reset h ih => exact sound_of_blank ih.config (fresh_reset L _).blank
  | @feed p t e h data he ih =>
    obtain ⟨s, result, hfeed, hs⟩ := feed_eq (L := L) p data
    have himpl : (p.feed L data).2.impl = s := by
      rw [hfeed] at he ⊢
      exact impl_of_finishFeed_error he
    have hbody := Impl.leaves_deliver Impl.bodyBounded_onCallback (p.reported L data) ih.body
    constructor
    · exact (config_feed p data).trans ih.config
    · rw [himpl]
      rcases hs with hs | hs <;> rw [hs] at hbody <;> exact hbody
    · rw [himpl]
      intro herror
      rcases hs with hs | hs
      · exact ih.exists_deliver hs herror
      · have hhonest := Impl.honest_deliver (p.reported L data) p.impl
        rw [hs] at hhonest
        exact absurd (herror.symm.trans hhonest.1) (by decide)
  | @complete p t r h data hr ih =>
    obtain ⟨s, result, hfeed, hs⟩ := feed_eq (L := L) p data
    obtain ⟨herror, himpl⟩ : s.hasError = false ∧ (p.feed L data).2.impl =
        { s with pending := { s.pending with body := s.chunkBuf, headers := [] } } := by
      rw [hfeed] at hr ⊢
      exact impl_of_finishFeed_ok hr
    have hbody := Impl.leaves_deliver Impl.bodyBounded_onCallback (p.reported L data) ih.body
    have hhonest := Impl.honest_deliver (p.reported L data) p.impl
    rcases hs with hs | hs <;> rw [hs] at hbody hhonest
    · obtain ⟨s₀, hbound, hs₀⟩ := ih.exists_deliver hs herror
      have hcount : s.CountBounded :=
        Impl.preserved_deliver Impl.countBounded_onCallback _ hbound hs₀
      refine ⟨(config_feed p data).trans ih.config, himpl ▸ hbody, fun _ ↦ ⟨_, ?_, rfl⟩⟩
      rw [himpl]
      exact hcount
    · exact absurd (herror.symm.trans hhonest.1) (by decide)

theorem Reaches.keepsBody (h : Reaches L config p t) (data : Bytes) :
    p.KeepsBody L config data := by
  rintro s ⟨t', -, hs⟩
  have hbody := Impl.leaves_deliver Impl.bodyBounded_onCallback t' h.sound.body
  have hhonest := Impl.honest_deliver t' p.impl
  rw [← h.sound.config]
  rcases hs with hs | hs <;> rw [hs] at hbody hhonest
  · exact hhonest.2 ▸ hbody.2
  · exact hhonest.2 ▸ hbody.2

/-- A message that is returned has at most one field too many, and none without trailers. -/
theorem Reaches.fields_le (h : Reaches L config p t) {data : Bytes} {m : Message}
    (hm : p.Returns L t data m) :
    m.fields.length + m.trailers.length ≤ config.maxHeaderCount + 1 ∧
      (m.trailers = [] → m.fields.length ≤ config.maxHeaderCount) := by
  obtain ⟨⟨r, hr⟩, htrace⟩ := hm
  obtain ⟨s, result, hfeed, hs⟩ := feed_eq (L := L) p data
  have herror : s.hasError = false := by
    rw [hfeed] at hr
    exact (impl_of_finishFeed_ok hr).1
  have hhonest := Impl.honest_deliver (p.reported L data) p.impl
  rcases hs with hs | hs <;> rw [hs] at hhonest
  · obtain ⟨s₀, hbound, hs₀⟩ := h.sound.exists_deliver hs herror
    obtain ⟨hseen, hempty⟩ :=
      Impl.advances_trace (Impl.deliver_eq_ok_of_coalesce htrace.symm hs₀)
    have hmax : s.headerCount ≤ config.maxHeaderCount := by
      rw [← h.sound.config, ← hhonest.2]
      exact Impl.preserved_deliver Impl.countBounded_onCallback _ hbound hs₀
    constructor
    · exact Nat.le_trans hseen (Nat.le_trans s.seen_le (Nat.add_le_add_right hmax 1))
    · intro hnone
      have hall : s.seen = s.headerCount := congrArg (s.headerCount + ·) (if_pos (hempty hnone))
      rw [hnone, hall] at hseen
      exact Nat.le_trans hseen hmax
  · exact absurd (herror.symm.trans hhonest.1) (by decide)

/-- **The limits hold, except that a trailer may be one field too many.** A parser has been fed and
reset in any way, and is fed once more. -/
theorem Reaches.limits_iff (h : Reaches L config p t) (data : Bytes) :
    p.KeepsBody L config data ∧ ∀ m, p.Returns L t data m → (m.FieldsFit config ↔
      m.trailers = [] ∨ m.fields.length + m.trailers.length ≠ config.maxHeaderCount + 1) := by
  refine ⟨h.keepsBody data, fun m hm ↦ ?_⟩
  obtain ⟨hle, hnone⟩ := h.fields_le hm
  rw [Message.FieldsFit]
  constructor
  · intro hfit
    exact Or.inr (by omega)
  · rintro (htrailers | hne)
    · rw [htrailers]
      exact hnone htrailers
    · omega

theorem returns_replay {config : ParserConfig} {m : Message} (hm : m.Within config)
    {script : Llhttp.Script} (hscript : script ≠ [])
    (htrace : pieces.coalesce script.callbacks = pieces.coalesce m.trace) :
    (create (Llhttp.replay script) config).Returns (Llhttp.replay script) [] script.wire m := by
  have hfresh := fresh_create (Llhttp.replay script) config
  have hexecute := Llhttp.replay_execute_wire script hscript []
  rw [List.append_nil] at hexecute
  have hreported : (create (Llhttp.replay script) config).reported (Llhttp.replay script)
      script.wire = pieces.coalesce script.callbacks := congrArg Prod.fst hexecute
  have hsame : pieces.coalesce (pieces.coalesce script.callbacks) = pieces.coalesce m.trace := by
    have hcut := Gluing.coalesce_coalesce_append (G := pieces) script.callbacks []
    rw [List.append_nil, List.append_nil] at hcut
    exact hcut.trans htrace
  obtain ⟨q, hq, hcomplete, -⟩ := Impl.deliver_trace hfresh.blank (m := m) hm
  have hdeliver := Impl.deliver_eq_ok_of_coalesce hsame hq
  constructor
  · exact ⟨_, congrArg Prod.fst
      (feed_of_paused hfresh.parser hfresh.blank.hasError hexecute hdeliver hcomplete)⟩
  · rw [List.nil_append, hreported, hsame]

/-- The upload with two trailers, where two fields are allowed. -/
theorem limits_upload :
    let L := Llhttp.replay uploadScript
    let p := create L { maxHeaderCount := 2 }
    p.KeepsBody L { maxHeaderCount := 2 } uploadScript.wire ∧
      ∀ m, p.Returns L [] uploadScript.wire m → (m.FieldsFit { maxHeaderCount := 2 } ↔
        m.trailers = [] ∨ m.fields.length + m.trailers.length ≠ 2 + 1) :=
  Reaches.limits_iff (.create .doubling) uploadScript.wire

/-- Its third field is a trailer, and it is returned. -/
theorem not_fieldsFit : ¬∀ (σ : Type) (L : Llhttp σ) (config : ParserConfig) (p : HttpParser σ)
    (t : List Callback) (data : Bytes), Reaches L config p t →
    p.KeepsBody L config data ∧ ∀ m, p.Returns L t data m → m.FieldsFit config := by
  intro h
  have hwithin : uploadWithTrailers.Within { maxHeaderCount := 2 } := by decide
  have hne : uploadScript ≠ [] := by decide
  have hreturns := returns_replay hwithin hne (by decide)
  have hle := (h _ _ _ _ _ _ (.create .doubling)).2 _ hreturns
  revert hle
  rw [Message.FieldsFit]
  decide

end HttpParser

end Aevox
