import Aevox.App.Pipelining
import Aevox.Http.Wire
import Aevox.Library.StreamDecoder

/-!
# What an HTTP client reads

The other end of a connection: a client that takes response messages off the front of what has
arrived (`responses`). It reads a body behind every header section, so it is one that has not asked
for a `HEAD`.

What the connection does is a sequence of exchanges: a request enters the pipeline, and a response
the pipeline ends with for this request is written before the next one enters (`Exchanging`). If
these responses are framed, the client reads them and nothing else, one for each request and in the
order of the requests, whatever part of the bytes has arrived (`client_reads_responses`).
-/

namespace Aevox

open Coroutine Delimited

/-! ## Responses off a stream -/

theorem readResponse_append {wire rest : Bytes} {m : WireResponse}
    (h : readResponse wire = some (m, rest)) : rest.length < wire.length ∧
      ∀ more, readResponse (wire ++ more) = some (m, rest ++ more) := by
  rw [readResponse] at h
  split at h
  · rename_i first lines tail hlines
    obtain ⟨hlen, -, happend⟩ := headLines_append hlines
    simp only [Option.bind_eq_bind, Option.bind_eq_some_iff] at h
    obtain ⟨code, hcode, fields, hfields, h⟩ := h
    split at h
    · exact absurd h (by simp)
    · rename_i hte
      simp only [Option.bind_eq_some_iff] at h
      obtain ⟨size, hsize, h⟩ := h
      split at h
      · rename_i hle
        obtain ⟨rfl, rfl⟩ := Prod.mk.inj (Option.some.inj h)
        refine ⟨by rw [List.length_drop]; omega, fun more ↦ ?_⟩
        have hmore : size ≤ (tail ++ more).length := by rw [List.length_append]; omega
        rw [readResponse, happend more]
        simp only [Option.bind_eq_bind, hcode, hfields, hsize, Option.bind_some, if_neg hte,
          if_pos hmore, List.take_append_of_le_length hle, List.drop_append_of_le_length hle]
      · exact absurd h (by simp)
  · exact absurd h (by simp)

/-- A client that reads responses, and waits until it can read the next one. -/
def responses : Decoder UInt8 WireResponse Empty where
  look wire :=
    match readResponse wire with
    | none => .more
    | some (m, rest) => .item m (wire.length - rest.length)
  look_nil := rfl
  consumed_le {l m n} h := by
    split at h
    · exact absurd h (by simp)
    next hread =>
      obtain ⟨hlen, -⟩ := readResponse_append hread
      obtain ⟨-, rfl⟩ := Verdict.item.inj h
      omega
  stable {l} h m := by
    split at h
    · exact absurd rfl h
    next hread =>
      obtain ⟨-, happend⟩ := readResponse_append hread
      rw [happend m]
      simp only [List.length_append, Nat.add_sub_add_right]

/-- The bytes of a message, as the serializer writes them. -/
def WireResponse.wire (m : WireResponse) : Bytes :=
  statusLine m.statusCode ++ m.fields.flatMap fieldLine ++ crlf ++ m.body

/-- What a client should read. -/
def Response.message (res : Response) : WireResponse where
  statusCode := res.statusCode
  fields := res.wireFields
  body := res.bodyView

theorem wire_message (res : Response) : res.message.wire = serializeResponse res := rfl

/-- A response that has not been moved from, with headers that its body may travel with. -/
structure Response.Framed (res : Response) : Prop where
  status : res.statusCode ∈ factoryStatuses
  headers : ∀ h ∈ res.headerEntries, FramedHeader res.bodyView.length h

instance (res : Response) : Decidable res.Framed :=
  decidable_of_iff (res.statusCode ∈ factoryStatuses ∧
    ∀ h ∈ res.headerEntries, FramedHeader res.bodyView.length h)
    ⟨fun h ↦ ⟨h.1, h.2⟩, fun h ↦ ⟨h.status, h.headers⟩⟩

private theorem parseStatusLine_text : ∀ code ∈ factoryStatuses,
    parseStatusLine (statusLineText code) = some code := by
  decide

/-- **A framed response is read as itself.** -/
theorem readResponse_serializeResponse {res : Response} (h : res.Framed) :
    readResponse (serializeResponse res) = some (res.message, []) := by
  have hframed := framedHeader_wireFields rfl h.headers
  have hwf : ∀ f ∈ res.wireFields, FieldWellFormed f := fun f hf ↦ (hframed f hf).1
  have hte : (res.wireFields.any fun f ↦ equalIgnoreCase f.1 (ascii "Transfer-Encoding")) = false :=
    List.any_eq_false.mpr fun f hf ↦ by rw [(hframed f hf).2.1]; exact Bool.false_ne_true
  have hlen : contentLengthOf res.wireFields = some res.bodyView.length :=
    contentLengthOf_eq_some_iff.mpr
      ⟨exists_contentLength_wireFields res, fun f hf ↦ (hframed f hf).2.2⟩
  rw [readResponse, headLines_serializeResponse h.status hwf]
  simp only [Option.bind_eq_bind, parseStatusLine_text _ h.status, mapM_parseField hwf,
    Option.bind_some, hte, Bool.false_eq_true, if_false, hlen, le_refl, if_true, List.take_length,
    List.drop_length]
  rfl

theorem readsBack_responses : responses.ReadsBack WireResponse.wire
    fun m ↦ ∃ res : Response, res.Framed ∧ m = res.message := by
  rintro m ⟨res, hres, rfl⟩ rest
  obtain ⟨-, happend⟩ := readResponse_append (readResponse_serializeResponse hres)
  have hread := happend rest
  rw [List.nil_append] at hread
  rw [wire_message]
  simp only [responses, hread, List.length_append, Nat.add_sub_cancel_right]

/-! ## Exchanges -/

/-- The request is answered with this response: the pipeline ends with it, and it is no sentinel. -/
def App.Responds (app : App) (req : Request) (res : Response) : Prop :=
  res.statusCode ≠ kStatusSwitchingProtocols ∧
    ∃ present, (app.dispatchWithPipeline req).Ends streamContract true present (.ok res)

/-- What comes after the requests that have been answered. -/
inductive Remainder where
  | none
  /-- A request in the pipeline, or one that has been lost or has led to a WebSocket. -/
  | request (req : Request)
  /-- The 400 response to a request that could not be parsed. -/
  | refusal

namespace Remainder

def entries : Remainder → List Entry
  | none => []
  | request req => [.dispatch req]
  | refusal => [.write (serializeResponse (.badRequest (ascii "Bad Request")))]

/-- The responses that are written. -/
def responses : Remainder → List Response
  | refusal => [.badRequest (ascii "Bad Request")]
  | _ => []

end Remainder

/-- The bytes of an entry that are handed to the stream. -/
def Entry.sent : Entry → Bytes
  | write bytes => bytes
  | upgrade bytes => bytes
  | _ => []

/-- What has been handed to the stream. -/
def sent (log : List Entry) : Bytes := log.flatMap Entry.sent

namespace Conn

variable {σ : Type} {L : Llhttp σ} {app : App} {config : AppConfig}

/-- An outcome of a dispatch of the request is a response to it. -/
def responds (app : App) (req : Request) (_ : Bool) (r : Except Exn Response) : Prop :=
  ∀ res, r = .ok res → res.statusCode ≠ kStatusSwitchingProtocols → app.Responds req res

/-- What has become of the last request where the connection is. -/
def ExchangingAt (app : App) (streamRef : Bool) : Phase → Remainder → Prop
  | .reading, remainder => remainder = .none
  | .awaiting _ k, remainder => ∃ req, remainder = .request req ∧
      ∀ answer, (k answer).wp streamContract (responds app req) streamRef
  | .upgrading _ k, remainder => ∃ req, remainder = .request req ∧
      ∀ success, (k success).wp streamContract (responds app req) streamRef
  | .responding _, remainder => remainder = .none
  | .refusing, remainder => remainder = .refusal
  | .finished _, _ => True
  | .undefined, _ => True

/-- A connection that has answered `done`. -/
structure Exchanging (app : App) (c : Conn σ) (done : List (Request × Response))
    (remainder : Remainder) : Prop where
  log : exchanges c.log = served done ++ remainder.entries
  responds : ∀ x ∈ done, app.Responds x.1 x.2
  phase : ExchangingAt app c.streamRef c.phase remainder

theorem exchanging_advance {c : Conn σ} {done : List (Request × Response)} {req : Request}
    {keepAlive : Bool} {task : Task Response}
    (hlog : exchanges c.log = served done ++ [.dispatch req])
    (hdone : ∀ x ∈ done, app.Responds x.1 x.2)
    (hwp : task.wp streamContract (responds app req) c.streamRef) :
    ∃ done' remainder, (c.advance keepAlive task).Exchanging app done' remainder := by
  have hpreserved : Preserved fun c : Conn σ ↦
      exchanges c.log = served done ++ [.dispatch req] := by
    refine ⟨fun _ h ↦ h, fun stage h ↦ ?_, fun bytes _ h ↦ ?_, fun _ h ↦ ?_⟩
    all_goals
      change exchanges (_ ++ [_]) = _
      rw [exchanges_concat, h]
      exact List.append_nil _
  have hsettled : Settled _ (responds app req) keepAlive (c.advance keepAlive task) :=
    settled_advance hpreserved hlog hwp
  generalize c.advance keepAlive task = c' at hsettled
  rcases hsettled with ⟨hphase, hP, hk⟩ | ⟨hphase, hP, hk⟩ | ⟨hP, hQ⟩ | ⟨hphase, hP⟩
  · refine ⟨done, .request req, hP, hdone, ?_⟩
    rw [hphase]
    exact ⟨req, rfl, hk⟩
  · refine ⟨done, .request req, hP, hdone, ?_⟩
    rw [hphase]
    exact ⟨req, rfl, hk⟩
  · rename_i c₁ r
    rcases r with e | res
    · exact ⟨done, .request req, hP, hdone, trivial⟩
    · by_cases hcode : res.statusCode = kStatusSwitchingProtocols
      · rw [conclude, if_pos hcode]
        exact ⟨done, .request req, hP, hdone, trivial⟩
      · rw [conclude, if_neg hcode]
        refine ⟨done ++ [(req, res)], .none, ?_, ?_, rfl⟩
        · change exchanges (c₁.log ++ [.write (serializeResponse res)]) = _
          rw [exchanges_concat, hP, served_concat, List.append_assoc]
          exact (List.append_nil _).symm
        · refine List.forall_mem_append.mpr ⟨hdone, List.forall_mem_singleton.mpr ?_⟩
          exact hQ res rfl hcode
  · refine ⟨done, .request req, hP, hdone, ?_⟩
    rw [hphase]
    trivial

theorem exchanging_of_moves {c c' : Conn σ} {e : Event}
    (hc : ∃ done remainder, c.Exchanging app done remainder) (h : Moves L app config c e c') :
    ∃ done remainder, c'.Exchanging app done remainder := by
  obtain ⟨done, remainder, hlog, hdone, hat⟩ := hc
  have hread {c₁ : Conn σ} (h : exchanges c₁.log = served done) :
      (read c₁).Exchanging app done .none := by
    refine ⟨?_, hdone, rfl⟩
    change exchanges (c₁.log ++ [.read]) = _
    rw [exchanges_concat, h]
    rfl
  have hnone (h : remainder = .none) : exchanges c.log = served done := by
    rw [hlog, h]
    exact List.append_nil _
  rcases h with ⟨hphase, _⟩ | ⟨hphase, _, _⟩ | ⟨hphase, _, _, _⟩ | ⟨hphase, _, _, _⟩ | hphase |
    hphase | hphase | ⟨hphase, _⟩ | hphase
  all_goals rw [hphase] at hat
  case close => exact ⟨done, remainder, hlog, hdone, trivial⟩
  case more => exact ⟨done, .none, hread (hnone hat)⟩
  case reject =>
    refine ⟨done, .refusal, ?_, hdone, rfl⟩
    change exchanges (c.log ++ [.write _]) = _
    rw [exchanges_concat, hnone hat]
    rfl
  case dispatch data parsed p req _ _ _ =>
    have hlog' : exchanges (c.log ++ [.dispatch req]) = served done ++ [.dispatch req] := by
      rw [exchanges_concat, hnone hat]
      rfl
    refine exchanging_advance hlog' hdone ?_
    refine (App.keeps_dispatchWithPipeline _).wp_iff.mpr fun present r hends res hr hcode ↦ ?_
    exact ⟨hcode, present, hr ▸ hends⟩
  case resume keepAlive k answer =>
    obtain ⟨req, rfl, hk⟩ := hat
    exact exchanging_advance hlog hdone (hk answer)
  case upgrade keepAlive k success =>
    obtain ⟨req, rfl, hk⟩ := hat
    exact exchanging_advance hlog hdone (hk success)
  case next => exact ⟨done, .none, hread (hnone hat)⟩
  case hangUp => exact ⟨done, remainder, hlog, hdone, trivial⟩
  case refused => exact ⟨done, remainder, hlog, hdone, trivial⟩

theorem exchanging_start : (start L app config).Exchanging app [] .none :=
  ⟨rfl, fun _ h ↦ absurd h List.not_mem_nil, rfl⟩

theorem exchanging_of_run {es : List Event} {c : Conn σ}
    (hrun : run L app config (start L app config) es = some c) :
    ∃ done remainder, c.Exchanging app done remainder :=
  Machine.run_invariant (I := fun c : Conn σ ↦ ∃ done remainder, c.Exchanging app done remainder)
    (fun _ _ _ hc hstep ↦ exchanging_of_moves hc (step_eq_some_iff.mp hstep))
    ⟨[], .none, exchanging_start⟩ hrun

/-! ## The bytes -/

theorem sent_exchanges {log : List Entry} (h : ∀ bytes, .upgrade bytes ∉ log) :
    sent log = sent (exchanges log) := by
  induction log with
  | nil => rfl
  | cons e log ih =>
    have hrest := ih fun bytes hmem ↦ h bytes (List.mem_cons_of_mem _ hmem)
    rw [sent, List.flatMap_cons, exchanges]
    cases e with
    | write bytes => exact congrArg (bytes ++ ·) hrest
    | upgrade bytes => exact absurd List.mem_cons_self (h bytes)
    | _ => exact hrest

theorem sent_served (done : List (Request × Response)) :
    sent (served done) = (done.map fun x ↦ x.2.message).flatMap WireResponse.wire := by
  induction done with
  | nil => rfl
  | cons x done ih =>
    rw [List.map_cons, List.flatMap_cons, ← ih]
    rfl

theorem sent_entries (remainder : Remainder) :
    sent remainder.entries
      = (remainder.responses.map Response.message).flatMap WireResponse.wire := by
  cases remainder with
  | none => rfl
  | request => rfl
  | refusal => exact (List.append_nil _).trans (List.append_nil _).symm

theorem framed_of_mem_responses {remainder : Remainder} :
    ∀ res ∈ remainder.responses, res.Framed := by
  intro res hres
  cases remainder with
  | none => exact absurd hres List.not_mem_nil
  | request => exact absurd hres List.not_mem_nil
  | refusal =>
    rw [List.mem_singleton.mp hres]
    decide

/-- **What an HTTP client reads.** In every run of a connection, requests enter the pipeline one
after another, and each is answered with a response that the pipeline ends with for it before the
next one enters; at the end there may be a request without an answer, or the 400 response to what
could not be parsed. If the responses are framed and there has been no upgrade, a client that reads
them off whatever part of the bytes has arrived reads these responses, in this order, whole and
unaltered, and from all the bytes it reads all of them and nothing is left. -/
theorem client_reads_responses {es : List Event} {c : Conn σ}
    (hrun : run L app config (start L app config) es = some c) :
    ∃ (done : List (Request × Response)) (remainder : Remainder),
      exchanges c.log = served done ++ remainder.entries ∧
      (∀ x ∈ done, app.Responds x.1 x.2) ∧
      ((∀ x ∈ done, x.2.Framed) → (∀ bytes, .upgrade bytes ∉ c.log) →
        ∀ received, received <+: sent c.log → ∃ messages rest,
          responses.decode received = (messages, .ok rest) ∧
          messages <+: (done.map Prod.snd ++ remainder.responses).map Response.message ∧
          received = messages.flatMap WireResponse.wire ++ rest ∧
          (received = sent c.log →
            messages = (done.map Prod.snd ++ remainder.responses).map Response.message ∧
              rest = [])) := by
  obtain ⟨done, remainder, hlog, hdone, -⟩ := exchanging_of_run hrun
  refine ⟨done, remainder, hlog, hdone, fun hframed hhttp received hreceived ↦ ?_⟩
  have hsent : sent c.log
      = ((done.map Prod.snd ++ remainder.responses).map Response.message).flatMap
          WireResponse.wire := by
    rw [sent_exchanges hhttp, hlog, sent, List.flatMap_append, ← sent, ← sent, sent_served,
      sent_entries, List.map_append, List.map_map, List.flatMap_append]
    rfl
  have hmessages : ∀ m ∈ (done.map Prod.snd ++ remainder.responses).map Response.message,
      ∃ res : Response, res.Framed ∧ m = res.message := by
    intro m hm
    obtain ⟨res, hres, rfl⟩ := List.mem_map.mp hm
    refine ⟨res, ?_, rfl⟩
    rcases List.mem_append.mp hres with hres | hres
    · obtain ⟨x, hx, rfl⟩ := List.mem_map.mp hres
      exact hframed x hx
    · exact framed_of_mem_responses res hres
  rw [hsent] at hreceived ⊢
  obtain ⟨messages, rest, hdecode, hprefix, hparts, hall⟩ :=
    readsBack_responses.decode_of_prefix hmessages hreceived
  refine ⟨messages, rest, hdecode, hprefix, hparts, fun h ↦ ⟨hall h, ?_⟩⟩
  rw [hall h] at hparts
  exact List.self_eq_append_right.mp (h.symm.trans hparts)

private theorem eq_of_responds {res : Response}
    (h : (middlewareApp []).Responds (getRequest.request {}) res) :
    res = .notFound (ascii "404 Not Found") := by
  have hpipeline : (middlewareApp []).dispatchWithPipeline (getRequest.request {})
      = call (.enter .router) fun _ ↦ ret (.notFound (ascii "404 Not Found")) := rfl
  obtain ⟨-, present, hends⟩ := h
  rw [hpipeline] at hends
  cases hends with
  | call _ hends =>
    cases hends
    rfl

/-- Two requests, and the client has read everything. -/
theorem client_reads_responses_two : ∃ c, run (Llhttp.replay getScript) (middlewareApp []) {}
      (.start (Llhttp.replay getScript) (middlewareApp []) {})
      [.readDone (some getRequest.wire), .writeDone true, .readDone (some getRequest.wire),
        .writeDone true] = some c ∧
    ∃ messages, responses.decode (sent c.log) = (messages, .ok []) ∧ messages.length = 2 := by
  have hruns : (run (Llhttp.replay getScript) (middlewareApp []) {}
      (.start (Llhttp.replay getScript) (middlewareApp []) {})
      [.readDone (some getRequest.wire), .writeDone true, .readDone (some getRequest.wire),
        .writeDone true]).map (fun c ↦ ((exchanges c.log).length, c.log.all fun
          | .upgrade _ => false
          | .dispatch req => req = getRequest.request {}
          | _ => true)) = some (4, true) := by
    decide +kernel
  obtain ⟨c, hrun, hend⟩ := Option.map_eq_some_iff.mp hruns
  obtain ⟨hlen, hhttp⟩ := Prod.mk.inj hend
  obtain ⟨done, remainder, hlog, hresponds, hreads⟩ := client_reads_responses hrun
  have hframed : ∀ x ∈ done, x.2.Framed := by
    intro x hx
    have hmem : .dispatch x.1 ∈ exchanges c.log := by
      rw [hlog]
      exact List.mem_append_left _ (List.mem_flatMap.mpr ⟨x, hx, List.mem_cons_self⟩)
    have hreq := of_decide_eq_true (List.all_eq_true.mp hhttp _ (List.mem_filter.mp hmem).1)
    have hres := hresponds x hx
    rw [hreq] at hres
    rw [eq_of_responds hres]
    decide
  have hnone : ∀ bytes, .upgrade bytes ∉ c.log :=
    fun bytes hmem ↦ Bool.false_ne_true (List.all_eq_true.mp hhttp _ hmem)
  obtain ⟨messages, rest, hdecode, -, -, hall⟩ :=
    hreads hframed hnone (sent c.log) List.prefix_rfl
  obtain ⟨rfl, rfl⟩ := hall rfl
  refine ⟨c, hrun, _, hdecode, ?_⟩
  have hserved : (served done).length = 2 * done.length := by
    rw [served, List.length_flatMap]
    simp [Nat.mul_comm]
  rw [hlog, List.length_append, hserved] at hlen
  rw [List.length_map, List.length_append, List.length_map]
  cases remainder with
  | none =>
    change 2 * done.length + 0 = 4 at hlen
    change done.length + 0 = 2
    omega
  | request =>
    change 2 * done.length + 1 = 4 at hlen
    omega
  | refusal =>
    change 2 * done.length + 1 = 4 at hlen
    omega

end Conn

end Aevox
