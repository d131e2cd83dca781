import Aevox.Http.Replay

/-!
# Header views and trailers

The views of the header pairs are made when the header section ends, and `feed` returns them when
the message does. In between, a chunked message may bring trailer fields, which the parser stores
like header fields: the first name of a trailer commits the pair before it. The last trailer is
never committed, so a message with at most one trailer leaves the storage alone, and a message with
more appends to it, which moves what the views point at unless there is room left.
-/

namespace Aevox

open HttpParser

variable {σ : Type} {L : Llhttp σ}

/-- The views returned with a message show the pairs of its header section, in order, and nothing
has been appended to the storage since they were made. -/
def ViewsDenote (m : Message) (r : ParsedRequest HeaderView) (p : HttpParser σ) : Prop :=
  p.impl.headerStorage.entries = m.fields ∧
    r.headers.map p.impl.headerStorage.lookup = m.fields.map some

theorem viewsDenote_append_iff {storage : HeaderStorage} (hempty : storage.entries = [])
    {m : Message} {extra : List (Bytes × Bytes)} {p : HttpParser σ}
    (hp : p.impl.headerStorage = (storage.append m.fields).append extra) :
    ViewsDenote m (m.parsed (storage.append m.fields).refs) p ↔ extra = [] := by
  have hentries : (storage.append m.fields).entries = m.fields := by
    rw [GrowingVector.entries_append, hempty, List.nil_append]
  rw [ViewsDenote, hp]
  constructor
  · rintro ⟨hsame, -⟩
    have hlen := congrArg List.length hsame
    rw [GrowingVector.entries_append, hentries, List.length_append] at hlen
    exact List.eq_nil_of_length_eq_zero (by omega)
  · rintro rfl
    rw [GrowingVector.append_nil]
    refine ⟨hentries, ?_⟩
    rw [Message.parsed, GrowingVector.lookup_refs, hentries]

/-- **Returned views denote the header section exactly without a second trailer.** A fresh parser
has been fed the reads of one message, cut and split in any way, and has returned its request. -/
theorem feed_viewsDenote_iff {p : HttpParser σ} (hp : p.Fresh L) {m : Message} {reads : List Bytes}
    {t : List Callback} {unread : Bytes} (hrun : L.Completes L.init reads t unread)
    (ht : pieces.coalesce t = pieces.coalesce m.trace) {r : ParsedRequest HeaderView}
    {p' : HttpParser σ} {rest : List Bytes} (hfeed : p.feedReads L reads = (.ok r, p', rest)) :
    ViewsDenote m r p' ↔ m.trailers.length ≤ 1 := by
  by_cases hm : m.Within p.impl.config
  · obtain ⟨p'', hread, hstorage, -⟩ := feedReads_message hp hm hrun ht
    rw [hread] at hfeed
    cases hfeed
    rw [viewsDenote_append_iff hp.blank.storage hstorage, List.eq_nil_iff_length_eq_zero,
      List.length_dropLast]
    omega
  · -- beyond the limits no request is returned at all
    obtain ⟨e, he, hcause⟩ := Impl.deliver_trace_error hp.blank hm
    obtain ⟨e', he', hsame⟩ := Impl.deliver_eq_error_of_coalesce ht he
    have hne : e'.lastError ≠ .incomplete := by
      rw [hsame]
      rcases hcause with h | h <;> rw [h] <;> decide
    obtain ⟨p'', rest', herr⟩ := feedReads_of_error (runs_of_completes hrun) hp.parser
      hp.blank.hasError he' hne
    cases hfeed.symm.trans herr

/-- An upload in one chunk, followed by two trailers. -/
def uploadWithTrailers : Message where
  method := ascii "POST"
  target := ascii "/"
  fields := [(ascii "Transfer-Encoding", ascii "chunked")]
  info := {}
  body := ascii "hi"
  trailers := [(ascii "A", ascii "1"), (ascii "B", ascii "2")]
  names_ne_nil := by decide

open Llhttp in
/-- Its bytes, with what llhttp reports at each. -/
def uploadScript : Script :=
  .span .onMethod "POST" ++ .quiet " " ++ .span .onUrl "/" ++ .quiet " HTTP/1.1\r\n" ++
  .span .onHeaderField "Transfer-Encoding" ++ .quiet ": " ++ .span .onHeaderValue "chunked" ++
  .quiet "\r\n\r" ++ .newline [.onHeadersComplete {}] ++
  .quiet "2\r\n" ++ .span .onBody "hi" ++ .quiet "\r\n0\r\n" ++
  .span .onHeaderField "A" ++ .quiet ": " ++ .span .onHeaderValue "1" ++ .quiet "\r\n" ++
  .span .onHeaderField "B" ++ .quiet ": " ++ .span .onHeaderValue "2" ++ .quiet "\r\n" ++
  .quiet "\r" ++ .newline [.onMessageComplete]

theorem parses_upload : (Llhttp.replay uploadScript).Parses uploadScript.wire uploadWithTrailers :=
  Llhttp.replay_parses (by decide)

/-- The upload, arriving in one read: its request is returned, and the theorem decides its views. -/
theorem feed_viewsDenote_upload :
    ∃ r p' rest, (create (Llhttp.replay uploadScript) {}).feedReads (Llhttp.replay uploadScript)
        [uploadScript.wire] = (.ok r, p', rest) ∧
      (ViewsDenote uploadWithTrailers r p' ↔ uploadWithTrailers.trailers.length ≤ 1) := by
  obtain ⟨t, hrun, ht⟩ := parses_upload [] uploadScript.wire [] (by simp) (by decide) (by simp)
  rw [List.append_nil] at hrun
  have hfresh := fresh_create (Llhttp.replay uploadScript) {}
  obtain ⟨p', hread, -⟩ := feedReads_message hfresh (m := uploadWithTrailers) (by decide) hrun ht
  exact ⟨_, p', [], hread, feed_viewsDenote_iff hfresh hrun ht hread⟩

/-- The second trailer appends the first one behind the views. -/
theorem not_viewsDenote_of_two_trailers :
    ¬∀ (σ : Type) (L : Llhttp σ) (p : HttpParser σ) (m : Message) (reads : List Bytes)
      (t : List Callback) (unread : Bytes) (r : ParsedRequest HeaderView) (p' : HttpParser σ)
      (rest : List Bytes), p.Fresh L → L.Completes L.init reads t unread →
      pieces.coalesce t = pieces.coalesce m.trace → p.feedReads L reads = (.ok r, p', rest) →
      ViewsDenote m r p' := by
  intro h
  obtain ⟨t, hrun, ht⟩ := parses_upload [] uploadScript.wire [] (by simp) (by decide) (by simp)
  rw [List.append_nil] at hrun
  have hfresh := fresh_create (Llhttp.replay uploadScript) {}
  obtain ⟨p', hread, hstorage, -⟩ :=
    feedReads_message hfresh (m := uploadWithTrailers) (by decide) hrun ht
  have hdenote := h _ _ _ _ _ _ _ _ _ _ hfresh hrun ht hread
  rw [viewsDenote_append_iff rfl hstorage] at hdenote
  revert hdenote
  decide

end Aevox
