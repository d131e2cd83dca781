import Aevox.Http.Fragmentation

/-!
# A llhttp that knows one message

`Llhttp.replay` reads the bytes of one particular message, one after another, and reports what the
script attaches to each byte; on any other byte it fails. Pieces of one span that arrive within one
call are reported together, as llhttp does. It is the smallest instance of the llhttp parameter,
and, for the message it knows, it meets the contract the connection handler relies on
(`replay_parses`): whatever the split into reads and whatever follows the message, the message's
callbacks are produced, possibly cut, and the call pauses right behind its last byte.
-/

namespace Aevox.Llhttp

/-- **llhttp's contract for one message**: however its bytes `wire` are split into non-empty reads,
and whatever bytes follow it in the last of them, llhttp reports the callbacks of `m`, cut somehow,
and stops behind the last byte of `wire`. -/
def Parses {σ : Type} (L : Llhttp σ) (wire : Bytes) (m : Message) : Prop :=
  ∀ (reads : List Bytes) (last extra : Bytes), (∀ r ∈ reads, r ≠ []) → last ≠ [] →
    (reads ++ [last]).flatten = wire →
    ∃ t, L.Completes L.init (reads ++ [last ++ extra]) t extra ∧
      pieces.coalesce t = pieces.coalesce m.trace

/-- What is left of the message, byte by byte, with the callbacks at each byte. -/
abbrev Script : Type := List (UInt8 × List Callback)

/-- The bytes of a script. -/
def Script.wire (script : Script) : Bytes := script.map Prod.fst

/-- Bytes llhttp does not report. -/
def Script.quiet (text : String) : Script := (ascii text).map fun b ↦ (b, [])

/-- Bytes of a span. -/
def Script.span (callback : Bytes → Callback) (text : String) : Script :=
  (ascii text).map fun b ↦ (b, [callback [b]])

/-- A line feed that triggers callbacks. -/
def Script.newline (t : List Callback) : Script := [(lf, t)]

/-- A request without a body. -/
def Script.request (method target : String) (fields : List (String × String))
    (info : HeadersInfo) : Script :=
  span .onMethod method ++ quiet " " ++ span .onUrl target ++ quiet " HTTP/1.1\r\n" ++
    (fields.flatMap fun f ↦
      span .onHeaderField f.1 ++ quiet ": " ++ span .onHeaderValue f.2 ++ quiet "\r\n") ++
    quiet "\r" ++ newline [.onHeadersComplete info, .onMessageComplete]

/-- The callbacks of a script. -/
def Script.callbacks (script : Script) : List Callback := script.flatMap Prod.snd

/-- One call, callbacks not put together yet. -/
def replayBytes : Script → Bytes → List Callback × Result Script
  | script, [] => ([], .ok script)
  | [], _ :: _ => ([], .error)
  | (b, t) :: script, d :: data =>
    if d ≠ b then ([], .error)
    else if script = [] then (t, .paused [] data)
    else
      let (t', result) := replayBytes script data
      (t ++ t', result)

/-- The llhttp that knows the message of `script`. -/
def replay (script : Script) : Llhttp Script where
  init := script
  execute st data := (pieces.coalesce (replayBytes st data).1, (replayBytes st data).2)

theorem replayBytes_append {a b : Script} (hb : b ≠ []) :
    replayBytes (a ++ b) a.wire = (a.callbacks, .ok b) := by
  induction a with
  | nil =>
    rcases b with _ | ⟨x, b⟩
    · exact absurd rfl hb
    · rfl
  | cons x a ih =>
    rw [List.cons_append, Script.wire, List.map_cons, replayBytes, if_neg (not_not.mpr rfl),
      if_neg (List.append_ne_nil_of_right_ne_nil a hb), ← Script.wire, ih]
    rfl

theorem replayBytes_wire {a : Script} (ha : a ≠ []) (extra : Bytes) :
    replayBytes a (a.wire ++ extra) = (a.callbacks, .paused [] extra) := by
  induction a with
  | nil => exact absurd rfl ha
  | cons x a ih =>
    rw [Script.wire, List.map_cons, List.cons_append, replayBytes, if_neg (not_not.mpr rfl),
      ← Script.wire]
    by_cases ha' : a = []
    · subst ha'
      rw [if_pos rfl, Script.callbacks, List.flatMap_cons, List.flatMap_nil, List.append_nil]
      rfl
    · rw [if_neg ha', ih ha']
      rfl

theorem replay_execute_wire (script : Script) {a : Script} (ha : a ≠ []) (extra : Bytes) :
    (replay script).execute a (a.wire ++ extra) =
      (pieces.coalesce a.callbacks, .paused [] extra) := by
  change (pieces.coalesce (replayBytes a _).1, (replayBytes a _).2) = _
  rw [replayBytes_wire ha]

theorem replay_execute_append (script : Script) {a b : Script} (hb : b ≠ []) :
    (replay script).execute (a ++ b) a.wire = (pieces.coalesce a.callbacks, .ok b) := by
  change (pieces.coalesce (replayBytes _ _).1, (replayBytes _ _).2) = _
  rw [replayBytes_append hb]

/-- The callbacks over a split message are the script's, up to cutting. -/
theorem replay_completes (script : Script) {reads : List Bytes} :
    ∀ {a : Script} {last extra : Bytes}, last ≠ [] → (reads ++ [last]).flatten = a.wire →
    ∃ t, (replay script).Completes a (reads ++ [last ++ extra]) t extra ∧
      pieces.coalesce t = pieces.coalesce a.callbacks := by
  induction reads with
  | nil =>
    intro a last extra hlast hsplit
    obtain rfl : last = a.wire := by simpa using hsplit
    have ha : a ≠ [] := by
      rintro rfl
      exact hlast rfl
    refine ⟨pieces.coalesce a.callbacks,
      Completes.last (replay_execute_wire script ha extra), ?_⟩
    have := Gluing.coalesce_coalesce_append (G := pieces) a.callbacks []
    rwa [List.append_nil, List.append_nil] at this
  | cons r reads ih =>
    intro a last extra hlast hsplit
    rw [List.cons_append, List.flatten_cons] at hsplit
    -- the first read ends between two bytes of the script, before its end
    obtain ⟨a₁, a₂, rfl, rfl, hrest⟩ : ∃ a₁ a₂ : Script,
        a = a₁ ++ a₂ ∧ a₁.wire = r ∧ a₂.wire = (reads ++ [last]).flatten :=
      List.map_eq_append_iff.mp hsplit.symm
    have ha₂ : a₂ ≠ [] := by
      rintro rfl
      rw [List.flatten_append, eq_comm, Script.wire, List.map_nil, List.append_eq_nil_iff] at hrest
      exact hlast (by simpa using hrest.2)
    obtain ⟨t, ht, hcoal⟩ := ih hlast hrest.symm
    refine ⟨pieces.coalesce a₁.callbacks ++ t,
      Completes.more (replay_execute_append script ha₂) ht, ?_⟩
    have happ : Script.callbacks (a₁ ++ a₂) = a₁.callbacks ++ a₂.callbacks := List.flatMap_append
    rw [Gluing.coalesce_coalesce_append, happ]
    exact Gluing.coalesce_append_congr hcoal _

/-- **The contract holds for the message of the script.** -/
theorem replay_parses {script : Script} {m : Message}
    (hm : pieces.coalesce script.callbacks = pieces.coalesce m.trace) :
    (replay script).Parses script.wire m := by
  intro reads last extra _ hlast hsplit
  rw [← hm]
  exact replay_completes script hlast hsplit

end Aevox.Llhttp
