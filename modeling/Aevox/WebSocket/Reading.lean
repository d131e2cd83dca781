import Aevox.WebSocket.Session

/-!
# What the read loop makes of a byte stream

TCP decides how many bytes one read returns. The parser never changes a verdict it has given, so the
read loop is the same coroutine whether a chunk is read at once or in two parts
(`doReadLoop_append`), and whoever answers its operations sees the same thing.

`Reader` is the read loop at work by itself, with a handler that may keep a state of its own and use
the session in its callbacks. It ends up in the same state however the stream is split
(`reads_eq_of_flatten_eq`).
-/

namespace Aevox

open Coroutine

namespace Session

variable {maxPayload : ℕ}

/-! ## Buffers and reads in two parts -/

theorem parseFrames_of_awaits {l : Bytes} (h : Awaits (parseFrameDetailed l maxPayload true))
    (fuel : ℕ) : parseFrames maxPayload fuel l = ret (.ok l) := by
  obtain ⟨err, herr, hkind⟩ := h
  cases fuel with
  | zero => rfl
  | succ fuel =>
    rw [parseFrames]
    by_cases hl : l = []
    · rw [if_pos hl]
    · simp only [if_neg hl, herr, if_pos hkind]

theorem parseFrames_of_error {l : Bytes} {err : ParseFrameError}
    (h : parseFrameDetailed l maxPayload true = .error err) (hkind : err.kind ≠ .incomplete)
    (fuel : ℕ) : parseFrames maxPayload (fuel + 1) l
      = (handleError err.error).andThen fun ending ↦ ret (.error ending) := by
  have hl : l ≠ [] := by
    rintro rfl
    exact hkind (Except.error.inj h ▸ rfl)
  rw [parseFrames]
  simp only [if_neg hl, h, if_neg hkind]

theorem parseFrames_of_ok {l : Bytes} {result : ParseResult}
    (h : parseFrameDetailed l maxPayload true = .ok result) (fuel : ℕ) :
    parseFrames maxPayload (fuel + 1) l = (handleFrame result.frame).andThen
      (unlessEnded (parseFrames maxPayload fuel (l.drop result.bytesConsumed))) := by
  have hl : l ≠ [] := by
    rintro rfl
    exact nomatch h
  rw [parseFrames]
  simp only [if_neg hl, h]

theorem parse_induction (maxPayload : ℕ) {motive : Bytes → Prop}
    (awaits : ∀ l, Awaits (parseFrameDetailed l maxPayload true) → motive l)
    (error : ∀ l err, parseFrameDetailed l maxPayload true = .error err →
      err.kind ≠ .incomplete → motive l)
    (ok : ∀ l result, parseFrameDetailed l maxPayload true = .ok result →
      motive (l.drop result.bytesConsumed) → motive l) (l : Bytes) : motive l := by
  induction hlen : l.length using Nat.strongRecOn generalizing l with
  | ind len ih =>
    cases hparse : parseFrameDetailed l maxPayload true with
    | error err =>
      by_cases hkind : err.kind = .incomplete
      · exact awaits l ⟨err, hparse, hkind⟩
      · exact error l err hparse hkind
    | ok result =>
      obtain ⟨-, hpos, hle⟩ := of_parseFrameDetailed hparse
      exact ok l result hparse (ih _ (by rw [List.length_drop]; omega) _ rfl)

theorem parseFrames_fuel (l : Bytes) : ∀ {fuel : ℕ}, l.length ≤ fuel →
    parseFrames maxPayload fuel l = parseFrames maxPayload l.length l := by
  induction l using parse_induction maxPayload with
  | awaits l h =>
    intro fuel _
    rw [parseFrames_of_awaits h, parseFrames_of_awaits h]
  | error l err h hkind =>
    intro fuel hfuel
    have hlen : l.length ≠ 0 := by
      intro hzero
      rw [List.length_eq_zero_iff.mp hzero] at h
      exact hkind (Except.error.inj h ▸ rfl)
    obtain ⟨n, hn⟩ := Nat.exists_eq_succ_of_ne_zero hlen
    obtain ⟨m, hm⟩ := Nat.exists_eq_succ_of_ne_zero (Nat.ne_of_gt (by omega : 0 < fuel))
    rw [hn, hm, parseFrames_of_error h hkind, parseFrames_of_error h hkind]
  | ok l result h ih =>
    intro fuel hfuel
    obtain ⟨-, hpos, hle⟩ := of_parseFrameDetailed h
    obtain ⟨n, hn⟩ := Nat.exists_eq_succ_of_ne_zero (Nat.ne_of_gt (hpos.trans_le hle))
    obtain ⟨m, hm⟩ := Nat.exists_eq_succ_of_ne_zero
      (Nat.ne_of_gt ((hpos.trans_le hle).trans_le hfuel))
    have hrest : (l.drop result.bytesConsumed).length = l.length - result.bytesConsumed :=
      List.length_drop
    rw [hn, hm, parseFrames_of_ok h, parseFrames_of_ok h, @ih n (by omega), @ih m (by omega)]

theorem parseFrames_violation {l : Bytes} {err : ParseFrameError}
    (h : parseFrameDetailed l maxPayload true = .error err) (hkind : err.kind ≠ .incomplete) :
    parseFrames maxPayload l.length l
      = (handleError err.error).andThen fun ending ↦ ret (.error ending) := by
  rw [← parseFrames_fuel l (Nat.le_succ _), parseFrames_of_error h hkind]

/-- The loop comes to a frame, and goes on behind it unless that ends the session. -/
theorem parseFrames_frame {l : Bytes} {result : ParseResult}
    (h : parseFrameDetailed l maxPayload true = .ok result) :
    parseFrames maxPayload l.length l = (handleFrame result.frame).andThen (unlessEnded
      (parseFrames maxPayload (l.drop result.bytesConsumed).length
        (l.drop result.bytesConsumed))) := by
  have hdrop : (l.drop result.bytesConsumed).length ≤ l.length := by
    rw [List.length_drop]
    exact Nat.sub_le _ _
  rw [← parseFrames_fuel l (Nat.le_succ _), parseFrames_of_ok h, parseFrames_fuel _ hdrop]

/-- What follows a read, if the loop has not ended. -/
def unlessOver (next : Bytes → Thread Progress) : Progress → Thread Progress
  | .ok rest => next rest
  | .error ending => ret (.error ending)

/-- **A buffer in two parts.** Parsing what has arrived, and then the rest behind what was left
over, is the same coroutine as parsing everything at once. -/
theorem parseFrames_append (m l : Bytes) :
    parseFrames maxPayload (l ++ m).length (l ++ m)
      = (parseFrames maxPayload l.length l).andThen
          (unlessOver fun rest ↦ parseFrames maxPayload (rest ++ m).length (rest ++ m)) := by
  induction l using parse_induction maxPayload with
  | awaits l h => rw [parseFrames_of_awaits h]; rfl
  | error l err h hkind =>
    have hfinal : parseFrameDetailed (l ++ m) maxPayload true = .error err := by
      rw [parseFrameDetailed_append _ m, h]
      rintro ⟨e, he, hinc⟩
      rw [h] at he
      exact hkind (Except.error.inj he ▸ hinc)
    rw [parseFrames_violation h hkind, parseFrames_violation hfinal hkind, andThen_assoc]
    rfl
  | ok l result h ih =>
    obtain ⟨-, -, hle⟩ := of_parseFrameDetailed h
    have hfinal : parseFrameDetailed (l ++ m) maxPayload true = .ok result := by
      rw [parseFrameDetailed_append _ m, h]
      rw [h]
      exact not_awaits_ok result
    rw [parseFrames_frame h, parseFrames_frame hfinal, andThen_assoc,
      List.drop_append_of_le_length hle, ih]
    refine congrArg _ (funext ?_)
    rintro (_ | ending)
    · rfl
    · rfl

/-- **A read in two parts** is the same coroutine as the whole read. -/
theorem doReadLoop_append {c c' : Bytes} (hc : c ≠ []) (hc' : c' ≠ []) (acc : Bytes) :
    doReadLoop maxPayload acc (some (c ++ c'))
      = (doReadLoop maxPayload acc (some c)).andThen
          (unlessOver fun rest ↦ doReadLoop maxPayload rest (some c')) := by
  have happend : c ++ c' ≠ [] := fun h ↦ hc (List.append_eq_nil_iff.mp h).1
  rw [doReadLoop, doReadLoop, afterRead, afterRead, if_neg hc, if_neg happend, ← List.append_assoc,
    parseFrames_append, andThen_assoc, andThen_assoc]
  refine congrArg _ (funext ?_)
  rintro (ending | rest)
  · rfl
  · change (parseFrames maxPayload _ _).andThen afterLoop = doReadLoop maxPayload rest (some c')
    rw [doReadLoop, afterRead, if_neg hc']

/-! ## The read loop by itself -/

variable {σ : Type}

/-- The callbacks of a `WebSocketHandler`. The application may keep a state of its own. -/
structure Handler (σ : Type) where
  onMessage : Bytes → σ → Code × σ
  onClose : UInt16 → σ → Code × σ

/-- What the application does when an operation calls it back. -/
def Handler.callback (H : Handler σ) : Op → σ → Code × σ
  | .onMessage payload, app => H.onMessage payload app
  | .onClose code, app => H.onClose code app
  | _, app => (ret (), app)

/-- An operation of the read loop, if nobody else is at work. -/
def Handler.exec (H : Handler σ) (op : Op) (s : Session × σ) : op.Answer × Session × σ :=
  ((Session.exec (H.callback op s.2).1 op s.1).1,
    (Session.exec (H.callback op s.2).1 op s.1).2, (H.callback op s.2).2)

/-- A session with its application, and where the read loop stands. -/
structure Reader (σ : Type) where
  session : Session
  app : σ
  progress : Progress

namespace Reader

variable (H : Handler σ) (maxPayload)

/-- The read loop from a read to the next one. When it has ended, it does not read any more. -/
def read (r : Reader σ) (data : Option Bytes) : Reader σ :=
  match r.progress with
  | .error _ => r
  | .ok accumulator =>
    match (doReadLoop maxPayload accumulator data).play H.exec (r.session, r.app) with
    | (.ok progress, s) => ⟨s.1, s.2, progress⟩
    | (.error e, _) => e.elim

/-- The read loop over a sequence of reads. -/
def reads (r : Reader σ) (chunks : List Bytes) : Reader σ :=
  chunks.foldl (fun r chunk ↦ r.read maxPayload H (some chunk)) r

variable {H maxPayload}

/-- Two reads in a row are one read of both chunks. -/
theorem read_read {c c' : Bytes} (hc : c ≠ []) (hc' : c' ≠ []) (r : Reader σ) :
    (r.read maxPayload H (some c)).read maxPayload H (some c')
      = r.read maxPayload H (some (c ++ c')) := by
  obtain ⟨session, app, _ | accumulator⟩ := r
  · rfl
  simp only [read, doReadLoop_append hc hc', play_andThen]
  rcases (doReadLoop maxPayload accumulator (some c)).play H.exec (session, app) with
    ⟨e | ending | rest, s⟩
  · exact e.elim
  · rfl
  · rfl

theorem reads_eq_read_flatten {chunks : List Bytes} (hne : chunks ≠ []) (h : ∀ c ∈ chunks, c ≠ []) :
    ∀ r : Reader σ, r.reads maxPayload H chunks = r.read maxPayload H (some chunks.flatten) := by
  induction chunks with
  | nil => exact absurd rfl hne
  | cons c cs ih =>
    intro r
    obtain ⟨hc, hcs⟩ := List.forall_mem_cons.mp h
    rcases cs with _ | ⟨c', cs⟩
    · rw [List.flatten_cons, List.flatten_nil, List.append_nil]
      rfl
    · have hrest : (c' :: cs).flatten ≠ [] := fun hflat ↦
        (List.forall_mem_cons.mp hcs).1 (List.append_eq_nil_iff.mp hflat).1
      rw [List.flatten_cons, ← read_read hc hrest, ← ih (List.cons_ne_nil _ _) hcs]
      rfl

/-- **Segmentation does not matter.** Two ways of splitting a byte stream into non-empty reads lead
to the same state: the callbacks made and the frames enqueued, in their order, the flags, the
application's state, and the outcome with what is left over. -/
theorem reads_eq_of_flatten_eq (H : Handler σ) (maxPayload : ℕ) (r : Reader σ)
    {chunks chunks' : List Bytes} (h : ∀ c ∈ chunks, c ≠ []) (h' : ∀ c ∈ chunks', c ≠ [])
    (heq : chunks.flatten = chunks'.flatten) :
    r.reads maxPayload H chunks = r.reads maxPayload H chunks' := by
  have hnil : ∀ {cs : List Bytes}, (∀ c ∈ cs, c ≠ []) → cs.flatten = [] → cs = [] := by
    intro cs hcs hflat
    rcases cs with _ | ⟨c, cs⟩
    · rfl
    · exact absurd (List.append_eq_nil_iff.mp hflat).1 (List.forall_mem_cons.mp hcs).1
  by_cases hempty : chunks.flatten = []
  · rw [hnil h hempty, hnil h' (heq ▸ hempty)]
  · have hne : chunks ≠ [] := by rintro rfl; exact hempty rfl
    have hne' : chunks' ≠ [] := by rintro rfl; exact hempty heq
    rw [reads_eq_read_flatten hne h, reads_eq_read_flatten hne' h', heq]

/-- A masked text frame in two halves, with a handler that counts messages. -/
theorem reads_eq_of_flatten_eq_hi :
    Reader.reads 16 ⟨fun _ n ↦ (ret (), n + 1), fun _ n ↦ (ret (), n)⟩ ⟨{}, 0, .ok []⟩
        [[0x81], [0x82, 1, 2, 3, 4, 0x69, 0x6B]]
      = Reader.reads 16 ⟨fun _ n ↦ (ret (), n + 1), fun _ n ↦ (ret (), n)⟩ ⟨{}, 0, .ok []⟩
        [[0x81, 0x82, 1, 2], [3, 4, 0x69], [0x6B]] :=
  reads_eq_of_flatten_eq _ _ _ (by decide) (by decide) rfl

end Reader

end Session

end Aevox
