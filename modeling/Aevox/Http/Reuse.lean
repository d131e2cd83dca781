import Aevox.Http.ParserLimits

/-!
# A parser that is used again

`reset` leaves three things of the past behind: the last error, which nobody reads until another one
is recorded, the version of the header storage, which only says which views still hold, and the
block of the storage. The first two never show. The third does: a request whose trailers are stored
behind its header views keeps these views where the block of an earlier request has room left, and
a new parser has to move them.

What the callbacks compute does not depend on what the pairs are appended to. So the state of a
parser with another past is that of a new one over another storage (`relabel`), a new parser being
its own relabelling, and the answers of the two are compared views by views (`showing_eq_iff`).
Which answers are requests, and how many views these have, is counted from the callbacks
(`Census`).
-/

namespace Aevox

/-! ## Counting fields -/

/-- What the callbacks say of a message: whether its last field has a value yet and whether it has a
name, how many fields have been stored, how many of these were stored when views were made, how long
the body is, and whether it has ended. -/
structure Census where
  inValue : Bool
  named : Bool
  stored : ℕ
  shown : ℕ
  body : ℕ
  complete : Bool

namespace Census

/-- A field is stored if it has a name. -/
def commit (c : Census) : Census := { c with named := false, stored := c.stored + c.named.toNat }

/-- A name ends the field before it, and so does the end of the header section. -/
def count (c : Census) : Callback → Census
  | .onHeaderField piece =>
    let c' := if c.inValue then c.commit else c
    { c' with inValue := false, named := c'.named || decide (piece ≠ []) }
  | .onHeaderValue _ => { c with inValue := true }
  | .onHeadersComplete _ => { c.commit with shown := c.commit.stored }
  | .onBody piece => { c with body := c.body + piece.length }
  | .onMessageComplete => { c with complete := true }
  | _ => c

/-- The fields and the body are within the limits. -/
def Within (config : ParserConfig) (c : Census) : Prop :=
  c.stored ≤ config.maxHeaderCount ∧ c.body ≤ config.maxBodyBytes

/-- If the fields behind the views make a new storage move, then they make one move that has room
for `capacity` pairs. -/
def Alike (growth : Growth) (capacity : ℕ) (c : Census) : Prop :=
  c.shown = 0 ∨ (growth.capacityFor 0 c.shown < c.stored →
    growth.capacityFor capacity c.shown < c.stored)

theorem within_of_count {config : ParserConfig} {c : Census} {callback : Callback}
    (h : (c.count callback).Within config) : c.Within config := by
  obtain ⟨hstored, hbody⟩ := h
  cases callback with
  | onHeaderField piece =>
    rw [count] at hstored hbody
    split at hstored
    · rw [if_pos ‹_›] at hbody
      exact ⟨Nat.le_trans (Nat.le_add_right _ _) hstored, hbody⟩
    · rw [if_neg ‹_›] at hbody
      exact ⟨hstored, hbody⟩
  | onHeadersComplete info => exact ⟨Nat.le_trans (Nat.le_add_right _ _) hstored, hbody⟩
  | onBody piece => exact ⟨hstored, Nat.le_trans (Nat.le_add_right _ _) hbody⟩
  | _ => exact ⟨hstored, hbody⟩

theorem within_of_foldl {config : ParserConfig} (t : List Callback) : ∀ {c : Census},
    (t.foldl count c).Within config → c.Within config := by
  induction t with
  | nil => exact id
  | cons callback t ih => exact fun h ↦ within_of_count (ih h)

end Census

namespace HttpParser

namespace Impl

/-- The census of a state. -/
def census (s : Impl) : Census where
  inValue := s.inValue
  named := decide (s.fieldBuf ≠ [])
  stored := s.headerStorage.entries.length
  shown := s.pending.headers.length
  body := s.bodyByteCount
  complete := s.complete

theorem census_commitHeader {s q : Impl} (h : s.commitHeader = .ok q) :
    q.census = s.census.commit := by
  rw [commitHeader] at h
  split at h
  · rename_i hfield
    rw [← Except.ok.inj h]
    simp [census, Census.commit, hfield]
  · rename_i hfield
    dsimp only at h
    split at h
    · cases h
    · rw [← Except.ok.inj h]
      simp [census, Census.commit, hfield, GrowingVector.emplaceBack]

/-- **The census is kept up by every callback.** -/
theorem census_onCallback {s q : Impl} {c : Callback} (h : s.onCallback c = .ok q) :
    q.census = s.census.count c := by
  cases c with
  | onHeaderField piece =>
    rw [onCallback, onHeaderField] at h
    by_cases hvalue : s.inValue = true
    · rw [if_pos hvalue] at h
      rcases hs : s.commitHeader with e | s' <;> rw [hs] at h
      · cases h
      · have hcommit := census_commitHeader hs
        rw [← Except.ok.inj h, Census.count, if_pos (by exact hvalue), ← hcommit]
        simp [census, List.append_eq_nil_iff, imp_iff_not_or]
    · rw [if_neg hvalue] at h
      rw [← Except.ok.inj h, Census.count, if_neg (by exact hvalue)]
      simp [census, List.append_eq_nil_iff, imp_iff_not_or, Bool.not_eq_true _ ▸ hvalue]
  | onHeadersComplete info =>
    rw [onCallback, onHeadersComplete] at h
    rcases hs : s.commitHeader with e | s' <;> rw [hs] at h
    · cases h
    · rw [← Except.ok.inj h, Census.count, ← census_commitHeader hs]
      simp only [census, refreshHeaderViews, GrowingVector.length_refs]
      rfl
  | onBody piece =>
    rw [onCallback, onBody] at h
    dsimp only at h
    split at h
    · cases h
    · rw [← Except.ok.inj h]
      rfl
  | _ =>
    rw [← Except.ok.inj h]
    rfl

theorem census_deliver (t : List Callback) : ∀ {s q : Impl}, s.deliver t = .ok q →
    q.census = t.foldl Census.count s.census := by
  induction t with
  | nil =>
    intro s q h
    rw [← Except.ok.inj h]
    rfl
  | cons c t ih =>
    intro s q h
    rw [deliver_cons] at h
    rcases hs : s.onCallback c with e | s' <;> rw [hs] at h
    · cases h
    · rw [ih h, List.foldl_cons, census_onCallback hs]

/-- Every stored pair has been counted. -/
def Tallied (s : Impl) : Prop := s.headerCount = s.headerStorage.entries.length

/-- The count is right, and no limit has been exceeded. -/
structure Counted (s : Impl) : Prop where
  tallied : s.Tallied
  within : s.census.Within s.config

theorem commitHeader_isOk_iff {s : Impl} (hs : s.Counted) :
    (∃ q, s.commitHeader = .ok q) ↔ s.census.commit.Within s.config := by
  constructor
  · rintro ⟨q, h⟩
    rw [commitHeader] at h
    split at h
    · simpa [census, Census.commit, Census.Within, ‹s.fieldBuf = []›] using hs.within
    · dsimp only at h
      split at h
      · cases h
      · rename_i hcount
        have hmax := Nat.not_lt.mp hcount
        rw [hs.tallied] at hmax
        exact ⟨by simpa [census, Census.commit, ‹¬s.fieldBuf = []›] using hmax, hs.within.2⟩
  · rintro ⟨hmax, -⟩
    rw [commitHeader]
    split
    · exact ⟨s, rfl⟩
    · have hcount : s.headerCount + 1 ≤ s.config.maxHeaderCount := by
        rw [hs.tallied]
        simpa [census, Census.commit, ‹¬s.fieldBuf = []›] using hmax
      dsimp only
      rw [if_neg (Nat.not_lt.mpr hcount)]
      exact ⟨_, rfl⟩

/-- **A callback reports an error exactly when it exceeds a limit.** -/
theorem onCallback_isOk_iff {s : Impl} (hs : s.Counted) (c : Callback) :
    (∃ q, s.onCallback c = .ok q) ↔ (s.census.count c).Within s.config := by
  have hbind {f : Impl → Impl} :
      (∃ q, (s.commitHeader >>= fun s' ↦ .ok (f s')) = .ok q) ↔ ∃ q, s.commitHeader = .ok q := by
    rcases s.commitHeader with e | s'
    · exact Iff.intro (fun ⟨_, h⟩ ↦ absurd h (by simp [bind, Except.bind]))
        (fun ⟨_, h⟩ ↦ absurd h (by simp))
    · exact iff_of_true ⟨f s', rfl⟩ ⟨s', rfl⟩
  cases c with
  | onHeaderField piece =>
    rw [onCallback, onHeaderField, Census.count]
    by_cases hvalue : s.inValue = true
    · rw [if_pos hvalue, if_pos (by exact hvalue), hbind, commitHeader_isOk_iff hs]
      rfl
    · rw [if_neg hvalue, if_neg (by exact hvalue)]
      exact iff_of_true ⟨_, rfl⟩ hs.within
  | onHeadersComplete info => exact hbind.trans (commitHeader_isOk_iff hs)
  | onBody piece =>
    rw [onCallback, onBody]
    dsimp only
    constructor
    · rintro ⟨q, h⟩
      split at h
      · cases h
      · exact ⟨hs.within.1, Nat.not_lt.mp ‹_›⟩
    · rintro ⟨-, hmax⟩
      exact ⟨_, if_neg (Nat.not_lt.mpr hmax)⟩
  | _ => exact iff_of_true ⟨_, rfl⟩ hs.within

theorem tallied_commitHeader {s : Impl} (hs : s.Tallied) : Leaves Tallied s.commitHeader := by
  have hstore : s.headerCount + 1 =
      (s.headerStorage.emplaceBack (s.fieldBuf, s.valueBuf)).entries.length := by
    simpa [Tallied, GrowingVector.emplaceBack] using hs
  rw [commitHeader]
  split
  · exact hs
  · dsimp only
    split <;> exact hstore

theorem tallied_onCallback {s : Impl} (hs : s.Tallied) (c : Callback) :
    Leaves Tallied (s.onCallback c) := by
  rcases c with _ | _ | piece | _ | info | piece | _
  case onHeaderField =>
    rw [onCallback, onHeaderField]
    split
    · exact (tallied_commitHeader hs).bind fun _ h ↦ h
    · exact hs
  case onHeadersComplete => exact (tallied_commitHeader hs).bind fun _ h ↦ h
  case onBody =>
    rw [onCallback, onBody]
    dsimp only
    split <;> exact hs
  all_goals exact hs

theorem counted_onCallback {s q : Impl} {c : Callback} (hs : s.Counted)
    (h : s.onCallback c = .ok q) : q.Counted where
  tallied := by
    have htallied := tallied_onCallback hs.tallied c
    rwa [h] at htallied
  within := by
    have hhonest := s.honest_onCallback c
    rw [h] at hhonest
    rw [census_onCallback h, hhonest.2]
    exact (onCallback_isOk_iff hs c).mp ⟨q, h⟩

/-- **The callbacks of a message are all accepted exactly when it is within the limits.** -/
theorem deliver_isOk_iff (t : List Callback) : ∀ {s : Impl}, s.Counted →
    ((∃ q, s.deliver t = .ok q) ↔ (t.foldl Census.count s.census).Within s.config) := by
  induction t with
  | nil => exact fun {s} hs ↦ iff_of_true ⟨s, rfl⟩ hs.within
  | cons c t ih =>
    intro s hs
    rw [deliver_cons, List.foldl_cons]
    rcases hc : s.onCallback c with e | s'
    · have hexceeds : ¬(s.census.count c).Within s.config := by
        rw [← onCallback_isOk_iff hs, hc]
        exact fun ⟨_, h⟩ ↦ absurd h (by simp)
      refine iff_of_false (fun ⟨_, h⟩ ↦ absurd h ?_) fun h ↦ hexceeds (Census.within_of_foldl t h)
      simp [bind, Except.bind]
    · have hhonest := s.honest_onCallback c
      rw [hc] at hhonest
      rw [← census_onCallback hc, ← hhonest.2]
      exact ih (counted_onCallback hs hc)

/-- Views are made of stored pairs only. -/
def Viewed (s : Impl) : Prop := s.census.shown ≤ s.census.stored

theorem viewed_commitHeader {s : Impl} (hs : s.Viewed) : Leaves Viewed s.commitHeader := by
  have hstore : s.pending.headers.length ≤
      (s.headerStorage.emplaceBack (s.fieldBuf, s.valueBuf)).entries.length :=
    Nat.le_trans hs (by simp [census, GrowingVector.emplaceBack])
  rw [commitHeader]
  split
  · exact hs
  · dsimp only
    split <;> exact hstore

theorem viewed_onCallback {s : Impl} (hs : s.Viewed) (c : Callback) :
    Leaves Viewed (s.onCallback c) := by
  rcases c with _ | _ | piece | _ | info | piece | _
  case onHeaderField =>
    rw [onCallback, onHeaderField]
    split
    · exact (viewed_commitHeader hs).bind fun _ h ↦ h
    · exact hs
  case onHeadersComplete =>
    refine (viewed_commitHeader hs).bind fun s' _ ↦ ?_
    change s'.headerStorage.refs.length ≤ s'.headerStorage.entries.length
    exact Nat.le_of_eq (GrowingVector.length_refs _)
  case onBody =>
    rw [onCallback, onBody]
    dsimp only
    split <;> exact hs
  all_goals exact hs

end Impl

/-! ## The same state over another storage -/

/-- Views of the same pairs, which have been appended to `start`. -/
def rebase (start : HeaderStorage) (entries : List (Bytes × Bytes))
    (r : ParsedRequest HeaderView) : ParsedRequest HeaderView :=
  { r with headers := (start.append (entries.take r.headers.length)).refs }

namespace Impl

/-- A parser that has another past: its pairs have been appended to `start`, and the last error was
`e` unless there has been one since. -/
def relabel (start : HeaderStorage) (e : ParseError) (s : Impl) : Impl :=
  { s with
    headerStorage := start.append s.headerStorage.entries
    pending := rebase start s.headerStorage.entries s.pending
    lastError := if s.hasError then s.lastError else e }

/-- The same for a callback that may report an error. -/
def relabelBoth (start : HeaderStorage) (e : ParseError) : Except Impl Impl → Except Impl Impl
  | .ok s => .ok (s.relabel start e)
  | .error s => .error (s.relabel start e)

variable {start : HeaderStorage} {e : ParseError}

theorem relabelBoth_bind {x : Except Impl Impl} {f g : Impl → Except Impl Impl}
    (hx : Leaves Viewed x) (hfg : ∀ s : Impl, s.Viewed → g (s.relabel start e) =
      relabelBoth start e (f s)) :
    relabelBoth start e x >>= g = relabelBoth start e (x >>= f) := by
  cases x with
  | error s => rfl
  | ok s => exact hfg s hx

theorem rebase_concat {s : Impl} (hs : s.Viewed) (f : Bytes × Bytes) :
    rebase start (s.headerStorage.entries ++ [f]) s.pending =
      rebase start s.headerStorage.entries s.pending := by
  rw [rebase, rebase, List.take_append_of_le_length (by exact hs)]

theorem commitHeader_relabel {s : Impl} (hs : s.Viewed) :
    (s.relabel start e).commitHeader = relabelBoth start e s.commitHeader := by
  rw [commitHeader, commitHeader]
  -- every test is about a field that both have
  by_cases hfield : s.fieldBuf = []
  · rw [if_pos hfield, if_pos (by exact hfield)]
    rfl
  · rw [if_neg hfield, if_neg (by exact hfield)]
    dsimp only
    by_cases hcount : s.headerCount + 1 > s.config.maxHeaderCount
    · rw [if_pos hcount, if_pos (by exact hcount)]
      simp only [relabel, relabelBoth, GrowingVector.emplaceBack_append, if_true]
      simp only [GrowingVector.emplaceBack, rebase_concat hs]
    · rw [if_neg hcount, if_neg (by exact hcount)]
      simp only [relabel, relabelBoth, GrowingVector.emplaceBack_append]
      simp only [GrowingVector.emplaceBack, rebase_concat hs]

/-- No callback reads what differs. -/
theorem onCallback_relabel {s : Impl} (hs : s.Viewed) (c : Callback) :
    (s.relabel start e).onCallback c = relabelBoth start e (s.onCallback c) := by
  cases c with
  | onMethod piece => rfl
  | onUrl piece => rfl
  | onHeaderField piece =>
    rw [onCallback, onCallback, onHeaderField, onHeaderField]
    by_cases hvalue : s.inValue = true
    · rw [if_pos hvalue, if_pos (by exact hvalue), commitHeader_relabel hs]
      exact relabelBoth_bind (viewed_commitHeader hs) fun _ _ ↦ rfl
    · rw [if_neg hvalue, if_neg (by exact hvalue)]
      rfl
  | onHeaderValue piece => rfl
  | onHeadersComplete info =>
    rw [onCallback, onCallback, onHeadersComplete, onHeadersComplete, commitHeader_relabel hs]
    refine relabelBoth_bind (viewed_commitHeader hs) fun s' _ ↦ ?_
    have hall : s'.headerStorage.entries.take s'.headerStorage.refs.length =
        s'.headerStorage.entries := by
      rw [GrowingVector.length_refs, List.take_length]
    simp only [refreshHeaderViews, relabel, relabelBoth, rebase, hall]
    rfl
  | onBody piece =>
    rw [onCallback, onCallback, onBody, onBody]
    dsimp only
    by_cases hsize : s.bodyByteCount + piece.length > s.config.maxBodyBytes
    · rw [if_pos hsize, if_pos (by exact hsize)]
      rfl
    · rw [if_neg hsize, if_neg (by exact hsize)]
      rfl
  | onMessageComplete => rfl

theorem deliver_relabel (t : List Callback) : ∀ {s : Impl}, s.Viewed →
    (s.relabel start e).deliver t = relabelBoth start e (s.deliver t) := by
  induction t with
  | nil => exact fun _ ↦ rfl
  | cons c t ih =>
    intro s hs
    rw [deliver_cons, deliver_cons, onCallback_relabel hs]
    exact relabelBoth_bind (viewed_onCallback hs c) fun _ h ↦ ih h

end Impl

variable {σ : Type} (L : Llhttp σ)

/-! ## Answers -/

/-- What an answer of the parser shows: its header views are looked up at once. -/
def shown (answer : Except ParseError (ParsedRequest HeaderView)) (p : HttpParser σ) :
    Except ParseError (ParsedRequest (Option (Bytes × Bytes))) :=
  answer.map (ParsedRequest.mapHeaders p.impl.headerStorage.lookup)

/-- What the parser answers to chunks that are fed to it, whatever it answers. -/
def answers (p : HttpParser σ) :
    List Bytes → List (Except ParseError (ParsedRequest (Option (Bytes × Bytes))))
  | [] => []
  | chunk :: chunks =>
    shown (p.feed L chunk).1 (p.feed L chunk).2 :: (p.feed L chunk).2.answers chunks

/-- The parser after it has been fed chunks. -/
def afterFeeds (p : HttpParser σ) (chunks : List Bytes) : HttpParser σ :=
  chunks.foldl (fun p chunk ↦ (p.feed L chunk).2) p

/-- The census of the parser once llhttp has made its callbacks for `data`. -/
def census (p : HttpParser σ) (data : Bytes) : Census :=
  (p.reported L data).foldl Census.count p.impl.census

/-- No error has been recorded, and llhttp pauses for `data` behind a message that has ended within
the limits. -/
structure Ends (p : HttpParser σ) (data : Bytes) : Prop where
  hasError : p.impl.hasError = false
  paused : ∃ st next unread, p.parser = some st ∧ (L.execute st data).2 = .paused next unread
  complete : (p.census L data).complete = true
  within : (p.census L data).Within p.impl.config

/-- Nothing has gone over a limit without an error. -/
def Accounted (p : HttpParser σ) : Prop := p.impl.hasError = false → p.impl.Counted

/-- The same parser with another past. -/
def relabel (start : HeaderStorage) (e : ParseError) (p : HttpParser σ) : HttpParser σ :=
  ⟨p.parser, p.impl.relabel start e⟩

variable {start : HeaderStorage} {e : ParseError}

theorem finishFeed_relabel (hstart : start.entries = []) (s : Impl) (result : Llhttp.Result σ) :
    finishFeed (s.relabel start e) result =
      ((finishFeed s result).1.map
          (rebase start (finishFeed s result).2.impl.headerStorage.entries),
        (finishFeed s result).2.relabel start e) := by
  unfold finishFeed
  -- `last_error_` is read only where an error has just been stored
  by_cases herror : s.hasError = true
  · have hlast : (s.relabel start e).lastError = s.lastError := if_pos herror
    rw [if_pos herror, if_pos (by exact herror), hlast]
    rfl
  · rw [if_neg herror, if_neg (by exact herror)]
    cases result with
    | ok next => rfl
    | paused next unread =>
      dsimp only
      by_cases hcomplete : s.complete = true
      · have hnone : start.refs = [] := by
          rw [GrowingVector.refs, hstart]
          rfl
        rw [if_pos hcomplete, if_pos (by exact hcomplete)]
        simp [relabel, Impl.relabel, rebase, Except.map, hnone]
      · rw [if_neg hcomplete, if_neg (by exact hcomplete)]
        rfl
    | error => rfl

theorem feed_relabel (hstart : start.entries = []) {p : HttpParser σ} (hp : p.impl.Viewed)
    (chunk : Bytes) : (p.relabel start e).feed L chunk =
      ((p.feed L chunk).1.map (rebase start (p.feed L chunk).2.impl.headerStorage.entries),
        (p.feed L chunk).2.relabel start e) := by
  obtain ⟨parser, s⟩ := p
  cases parser with
  | none => exact finishFeed_relabel hstart s .error
  | some st =>
    simp only [feed, relabel, Impl.deliver_relabel (L.execute st chunk).1 hp]
    cases s.deliver (L.execute st chunk).1 with
    | ok q => exact finishFeed_relabel hstart q _
    | error q => exact finishFeed_relabel hstart q .error

theorem viewed_feed {p : HttpParser σ} (hp : p.impl.Viewed) (chunk : Bytes) :
    (p.feed L chunk).2.impl.Viewed := by
  obtain ⟨s, result, hfeed, hs⟩ := feed_eq (L := L) p chunk
  have hviewed := Impl.leaves_deliver Impl.viewed_onCallback (p.reported L chunk) hp
  have hsame : s.Viewed := by rcases hs with hs | hs <;> rw [hs] at hviewed <;> exact hviewed
  rw [hfeed]
  unfold finishFeed
  repeat' split
  all_goals first | exact hsame | exact Nat.zero_le _

theorem viewed_afterFeeds (chunks : List Bytes) : ∀ {p : HttpParser σ}, p.impl.Viewed →
    (p.afterFeeds L chunks).impl.Viewed := by
  induction chunks with
  | nil => exact fun hp ↦ hp
  | cons chunk chunks ih => exact fun hp ↦ ih (viewed_feed L hp chunk)

theorem afterFeeds_relabel (hstart : start.entries = []) (chunks : List Bytes) :
    ∀ {p : HttpParser σ}, p.impl.Viewed →
      (p.relabel start e).afterFeeds L chunks = (p.afterFeeds L chunks).relabel start e := by
  induction chunks with
  | nil => exact fun _ ↦ rfl
  | cons chunk chunks ih =>
    intro p hp
    have hfeed := congrArg Prod.snd (feed_relabel L (e := e) hstart hp chunk)
    exact (congrArg (fun q ↦ afterFeeds L q chunks) hfeed).trans (ih (viewed_feed L hp chunk))

/-! ### Which answers are requests -/

theorem finishFeed_isOk_iff {s : Impl} {result : Llhttp.Result σ} :
    (∃ r, (finishFeed s result).1 = .ok r) ↔
      s.hasError = false ∧ s.complete = true ∧ ∃ next unread, result = .paused next unread := by
  unfold finishFeed
  by_cases herror : s.hasError = true
  · rw [if_pos herror]
    exact iff_of_false (by simp) (by simp [herror])
  · rw [if_neg herror]
    cases result with
    | paused next unread =>
      dsimp only
      by_cases hcomplete : s.complete = true
      · rw [if_pos hcomplete]
        exact iff_of_true ⟨_, rfl⟩ ⟨Bool.not_eq_true _ ▸ herror, hcomplete, next, unread, rfl⟩
      · rw [if_neg hcomplete]
        exact iff_of_false (by simp) (by simp [hcomplete])
    | ok next => exact iff_of_false (by simp) (by simp)
    | error => exact iff_of_false (by simp) (by simp)

/-- **A request is returned exactly when a message ends within the limits.** -/
theorem feed_isOk_iff {p : HttpParser σ} (hp : p.Accounted) (data : Bytes) :
    (∃ r, (p.feed L data).1 = .ok r) ↔ p.Ends L data := by
  obtain ⟨parser, s⟩ := p
  cases parser with
  | none => exact iff_of_false (by simp [feed, finishFeed_isOk_iff]) fun h ↦ by simpa using h.paused
  | some st =>
    have hhonest := s.honest_deliver (L.execute st data).1
    rw [feed]
    dsimp only
    rcases hdeliver : s.deliver (L.execute st data).1 with q | q <;> rw [hdeliver] at hhonest
    · -- a callback has reported an error, so a limit is exceeded
      refine iff_of_false (by simp [finishFeed_isOk_iff, hhonest.1]) fun h ↦ ?_
      obtain ⟨q', hq'⟩ := (Impl.deliver_isOk_iff _ (hp h.hasError)).mpr h.within
      exact absurd (hdeliver.symm.trans hq') (by simp)
    · have hcensus := Impl.census_deliver _ hdeliver
      rw [finishFeed_isOk_iff, hhonest.1]
      constructor
      · rintro ⟨herror, hcomplete, next, unread, hpaused⟩
        refine ⟨herror, ⟨st, next, unread, rfl, hpaused⟩, ?_, ?_⟩
        · exact (congrArg Census.complete hcensus).symm.trans hcomplete
        · exact (Impl.deliver_isOk_iff _ (hp herror)).mp ⟨q, hdeliver⟩
      · rintro ⟨herror, ⟨st', next, unread, hst, hpaused⟩, hcomplete, -⟩
        obtain rfl := Option.some.inj hst
        exact ⟨herror, (congrArg Census.complete hcensus).trans hcomplete, next, unread, hpaused⟩

theorem accounted_create (config : ParserConfig) (growth : Growth) :
    (create L config growth).Accounted := fun _ ↦ ⟨rfl, Nat.zero_le _, Nat.zero_le _⟩

theorem accounted_feed {p : HttpParser σ} (hp : p.Accounted) (chunk : Bytes) :
    (p.feed L chunk).2.Accounted := by
  intro hnone
  obtain ⟨s, result, hfeed, hs⟩ := feed_eq (L := L) p chunk
  have hhonest := Impl.honest_deliver (p.reported L chunk) p.impl
  rw [hfeed] at hnone ⊢
  have himpl : (finishFeed s result).2.impl.hasError = s.hasError ∧
      (s.Counted → (finishFeed s result).2.impl.Counted) := by
    unfold finishFeed
    repeat' split
    all_goals exact ⟨rfl, fun h ↦ ⟨h.tallied, h.within⟩⟩
  rcases hs with hs | hs <;> rw [hs] at hhonest
  · exact himpl.2 (Impl.preserved_deliver Impl.counted_onCallback _
      (hp (hhonest.1.symm.trans (himpl.1.symm.trans hnone))) hs)
  · exact absurd (hhonest.1.symm.trans (himpl.1.symm.trans hnone)) (by decide)

theorem accounted_afterFeeds (chunks : List Bytes) : ∀ {p : HttpParser σ}, p.Accounted →
    (p.afterFeeds L chunks).Accounted := by
  induction chunks with
  | nil => exact fun hp ↦ hp
  | cons chunk chunks ih => exact fun hp ↦ ih (accounted_feed L hp chunk)

/-! ### What the views show -/

/-- What a request shows that has been put together over a storage that had room for `capacity`
pairs, when `entries` have been stored in all. -/
def showing (growth : Growth) (capacity : ℕ) (entries : List (Bytes × Bytes))
    (r : ParsedRequest HeaderView) : ParsedRequest (Option (Bytes × Bytes)) :=
  { r with
    headers := (entries.take r.headers.length).map fun f ↦
      if entries.length ≤ growth.capacityFor capacity r.headers.length then some f else none }

theorem shown_relabel (hstart : start.entries = []) (p : HttpParser σ)
    {r : ParsedRequest HeaderView}
    (hr : r.headers.length ≤ p.impl.headerStorage.entries.length) :
    shown (.ok (rebase start p.impl.headerStorage.entries r)) (p.relabel start e) =
      .ok (showing start.growth start.capacity p.impl.headerStorage.entries r) := by
  have hsplit := List.take_append_drop r.headers.length p.impl.headerStorage.entries
  have hlen := congrArg List.length hsplit
  rw [List.length_append] at hlen
  have htake : (p.impl.headerStorage.entries.take r.headers.length).length = r.headers.length :=
    List.length_take_of_le hr
  have hheaders : (start.append (p.impl.headerStorage.entries.take r.headers.length)).refs.map
      (start.append p.impl.headerStorage.entries).lookup =
        (showing start.growth start.capacity p.impl.headerStorage.entries r).headers := by
    conv_lhs => rw [← hsplit, ← GrowingVector.append_append, hsplit]
    rw [GrowingVector.lookup_refs_append, GrowingVector.entries_append, hstart, List.nil_append,
      GrowingVector.capacity_append start hstart, hlen, htake, showing]
    split <;> rfl
  exact congrArg (fun headers ↦ Except.ok { r with headers := headers }) hheaders

/-- Two storages show the same of a request exactly when its views survive in both or in neither,
unless there are none. -/
theorem showing_eq_iff {growth : Growth} {c c' : ℕ} {entries : List (Bytes × Bytes)}
    {r : ParsedRequest HeaderView} (hr : r.headers.length ≤ entries.length) :
    showing growth c entries r = showing growth c' entries r ↔
      r.headers.length = 0 ∨ (entries.length ≤ growth.capacityFor c r.headers.length ↔
        entries.length ≤ growth.capacityFor c' r.headers.length) := by
  constructor
  · intro h
    by_cases hnone : r.headers.length = 0
    · exact Or.inl hnone
    · refine Or.inr ?_
      have hheaders := congrArg ParsedRequest.headers h
      obtain ⟨f, hf⟩ := List.exists_mem_of_length_pos
        ((List.length_take_of_le hr).symm ▸ Nat.pos_of_ne_zero hnone)
      have hview := List.map_inj_left.mp hheaders f hf
      constructor <;> intro hroom <;> by_contra hnot <;> simp [hroom, hnot] at hview
  · rintro (hnone | hsame)
    · simp only [showing, hnone, List.take_zero, List.map_nil]
    · simp only [showing, hsame]

theorem of_feed_ok {p : HttpParser σ} {data : Bytes} {r : ParsedRequest HeaderView}
    (hr : (p.feed L data).1 = .ok r) : ∃ s, p.impl.deliver (p.reported L data) = .ok s ∧
      r.headers = s.pending.headers ∧ (p.feed L data).2.impl.headerStorage = s.headerStorage := by
  obtain ⟨s, result, hfeed, hs⟩ := feed_eq (L := L) p data
  rw [hfeed] at hr ⊢
  obtain ⟨herror, himpl⟩ := impl_of_finishFeed_ok hr
  have hhonest := Impl.honest_deliver (p.reported L data) p.impl
  rcases hs with hs | hs
  · exact ⟨s, hs, headers_of_finishFeed_ok hr, by rw [himpl]⟩
  · rw [hs] at hhonest
    exact absurd (herror.symm.trans hhonest.1) (by decide)

theorem census_of_feed_ok {p : HttpParser σ} {data : Bytes} {r : ParsedRequest HeaderView}
    (hr : (p.feed L data).1 = .ok r) :
    r.headers.length = (p.census L data).shown ∧
      (p.feed L data).2.impl.headerStorage.entries.length = (p.census L data).stored := by
  obtain ⟨s, hs, hheaders, hstorage⟩ := of_feed_ok L hr
  rw [hheaders, hstorage, census, ← Impl.census_deliver _ hs]
  exact ⟨rfl, rfl⟩

theorem views_le_of_feed_ok {p : HttpParser σ} (hp : p.impl.Viewed) {data : Bytes}
    {r : ParsedRequest HeaderView} (hr : (p.feed L data).1 = .ok r) :
    r.headers.length ≤ (p.feed L data).2.impl.headerStorage.entries.length := by
  obtain ⟨s, hs, hheaders, hstorage⟩ := of_feed_ok L hr
  have hviewed := Impl.leaves_deliver Impl.viewed_onCallback (p.reported L data) hp
  rw [hs] at hviewed
  rw [hheaders, hstorage]
  exact hviewed

/-- **Two pasts are told apart by what the views of the returned requests show**, and by nothing
else. -/
theorem answers_relabel_eq_iff {start' : HeaderStorage} {e' : ParseError}
    (hstart : start.entries = []) (hstart' : start'.entries = []) (chunks : List Bytes) :
    ∀ {p : HttpParser σ}, p.impl.Viewed →
      ((p.relabel start e).answers L chunks = (p.relabel start' e').answers L chunks ↔
        ∀ cs data rest, chunks = cs ++ data :: rest →
          ∀ r, ((p.afterFeeds L cs).feed L data).1 = .ok r →
            showing start.growth start.capacity
                ((p.afterFeeds L cs).feed L data).2.impl.headerStorage.entries r =
              showing start'.growth start'.capacity
                ((p.afterFeeds L cs).feed L data).2.impl.headerStorage.entries r) := by
  induction chunks with
  | nil =>
    intro p hp
    refine iff_of_true rfl fun cs data rest h ↦ ?_
    exact absurd h (by simp)
  | cons chunk chunks ih =>
    intro p hp
    have hnext := viewed_feed L hp chunk
    rw [answers, answers, feed_relabel L hstart hp, feed_relabel L hstart' hp, List.cons_eq_cons,
      ih hnext]
    have hhead : shown ((p.feed L chunk).1.map
          (rebase start (p.feed L chunk).2.impl.headerStorage.entries))
          ((p.feed L chunk).2.relabel start e) =
        shown ((p.feed L chunk).1.map
          (rebase start' (p.feed L chunk).2.impl.headerStorage.entries))
          ((p.feed L chunk).2.relabel start' e') ↔
        ∀ r, (p.feed L chunk).1 = .ok r →
          showing start.growth start.capacity (p.feed L chunk).2.impl.headerStorage.entries r =
            showing start'.growth start'.capacity
              (p.feed L chunk).2.impl.headerStorage.entries r := by
      rcases hanswer : (p.feed L chunk).1 with err | r
      · exact iff_of_true rfl fun _ h ↦ nomatch h
      · have hle := views_le_of_feed_ok L hp hanswer
        rw [Except.map, Except.map, shown_relabel hstart _ hle, shown_relabel hstart' _ hle]
        refine ⟨fun h r' hr' ↦ ?_, fun h ↦ congrArg Except.ok (h r rfl)⟩
        obtain rfl := Except.ok.inj hr'
        exact Except.ok.inj h
    rw [hhead]
    constructor
    · rintro ⟨hfirst, hlater⟩ cs data rest h
      rcases cs with _ | ⟨c, cs⟩
      · obtain ⟨rfl, rfl⟩ := List.cons.inj h
        exact hfirst
      · obtain ⟨rfl, rfl⟩ := List.cons.inj h
        exact hlater cs data rest rfl
    · intro h
      exact ⟨h [] chunk chunks rfl, fun cs data rest hcs ↦ h (chunk :: cs) data rest (hcs ▸ rfl)⟩

/-! ## After a reset -/

theorem config_afterFeeds (chunks : List Bytes) : ∀ p : HttpParser σ,
    (p.afterFeeds L chunks).impl.config = p.impl.config := by
  induction chunks with
  | nil => exact fun _ ↦ rfl
  | cons chunk chunks ih => exact fun p ↦ (ih _).trans (config_feed p chunk)

theorem viewed_create (config : ParserConfig) (growth : Growth) :
    (create L config growth).impl.Viewed := Nat.le_refl 0

/-- A reset leaves a new parser with another past. -/
theorem reset_eq_relabel (p : HttpParser σ) (growth : Growth) : p.reset L =
    (create L p.impl.config growth).relabel p.impl.headerStorage.clear p.impl.lastError := by
  rw [reset, create, relabel, Impl.relabel]
  simp only [rebase, GrowingVector.empty, GrowingVector.clear, List.take_nil,
    GrowingVector.append_nil, GrowingVector.refs, List.length_nil, List.range_zero, List.map_nil,
    Bool.false_eq_true, if_false]

theorem storage_afterFeeds (config : ParserConfig) (growth : Growth) (history : List Bytes) :
    ((create L config growth).afterFeeds L history).impl.headerStorage.growth = growth ∧
      ∃ n, ((create L config growth).afterFeeds L history).impl.headerStorage.capacity =
        growth.capacityFor 0 n := by
  have hrun : (create L config growth).afterFeeds L history =
      ((create L config growth).afterFeeds L history).relabel (.empty growth) .badRequest :=
    @afterFeeds_relabel _ L (.empty growth) .badRequest rfl history _
      (viewed_create L config growth)
  rw [hrun]
  exact ⟨GrowingVector.growth_append _ _, _, GrowingVector.capacity_append _ rfl _⟩

/-- An old block is no smaller than a new one, so it can only save views. -/
theorem alike_iff {growth : Growth} {n : ℕ} {c : Census} :
    c.Alike growth (growth.capacityFor 0 n) ↔ c.shown = 0 ∨
      (c.stored ≤ growth.capacityFor (growth.capacityFor 0 n) c.shown ↔
        c.stored ≤ growth.capacityFor 0 c.shown) := by
  have hmore := growth.capacityFor_le_capacityFor 0 n c.shown
  refine or_congr_right ⟨fun h ↦ ⟨fun hold ↦ ?_, fun hnew ↦ Nat.le_trans hnew hmore⟩, ?_⟩
  · by_contra hnew
    exact absurd hold (Nat.not_le.mpr (h (Nat.not_le.mp hnew)))
  · intro h hnew
    exact Nat.not_le.mp fun hold ↦ absurd (h.mp hold) (Nat.not_le.mpr hnew)

/-- **Reuse leaves no trace exactly when it does not save the views of a request.** Whatever has
been fed to a parser before a reset, it answers like a new one afterwards if and only if no message
that ends within the limits has header views that a new storage moves and the old block does not. -/
theorem answers_reset_iff (config : ParserConfig) (growth : Growth) (history chunks : List Bytes) :
    (((create L config growth).afterFeeds L history).reset L).answers L chunks =
        (create L config growth).answers L chunks ↔
      ∀ cs data rest, chunks = cs ++ data :: rest →
        ((create L config growth).afterFeeds L cs).Ends L data →
          (((create L config growth).afterFeeds L cs).census L data).Alike growth
            ((create L config growth).afterFeeds L history).impl.headerStorage.capacity := by
  have hviewed := viewed_create L config growth
  obtain ⟨hgrowth, n, hcapacity⟩ := storage_afterFeeds L config growth history
  have hreset := reset_eq_relabel L ((create L config growth).afterFeeds L history) growth
  rw [config_afterFeeds] at hreset
  rw [hreset]
  refine (@answers_relabel_eq_iff _ L _ _ (.empty growth) .badRequest rfl rfl chunks _
    hviewed).trans ?_
  refine forall₄_congr fun cs data rest _ ↦ ?_
  rw [← feed_isOk_iff L (accounted_afterFeeds L cs (accounted_create L config growth)),
    forall_exists_index]
  refine forall₂_congr fun r hr ↦ ?_
  have hle := views_le_of_feed_ok L (viewed_afterFeeds L cs hviewed) hr
  obtain ⟨hshown, hstored⟩ := census_of_feed_ok L hr
  rw [hcapacity, alike_iff, ← hshown, ← hstored]
  rw [GrowingVector.growth_clear, GrowingVector.capacity_clear, hgrowth, hcapacity]
  exact showing_eq_iff hle

/-- The upload with two trailers is read twice: the block the first one has left saves the views of
the second. -/
theorem not_answers_reset : ¬∀ (σ : Type) (L : Llhttp σ) (config : ParserConfig) (growth : Growth)
    (history chunks : List Bytes),
    (((create L config growth).afterFeeds L history).reset L).answers L chunks =
      (create L config growth).answers L chunks := by
  intro h
  have hsame := h _ (Llhttp.replay uploadScript) {} .doubling [uploadScript.wire]
    [uploadScript.wire]
  have hviews := congrArg (List.map (Except.map fun r ↦ r.headers.map Option.isSome)) hsame
  revert hviews
  decide +kernel

end HttpParser

end Aevox
