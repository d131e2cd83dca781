import Mathlib.Data.List.Basic

/-!
# Decoding a stream that arrives in pieces

A decoder looks at what has arrived and not been consumed yet, and says that it needs more, that an
item takes up the first so many symbols, or that the stream stops here. A receiver runs it on a
buffer as long as it delivers items, keeps what is left over, and starts again when more arrives.

If a verdict never changes once it has been given (`Decoder.stable`), the pieces do not matter:
decoding a beginning, and then the rest behind what was left over, is decoding everything at once
(`decode_append`).
-/

/-- What a decoder says about a buffer. -/
inductive Verdict (β ε : Type) where
  | more
  | item (b : β) (consumed : ℕ)
  | stop (e : ε)

/-- A decoder that does not change its mind. -/
structure Decoder (α β ε : Type) where
  /-- The verdict on a buffer. -/
  look : List α → Verdict β ε
  /-- There is nothing in an empty buffer. -/
  look_nil : look [] = .more
  /-- An item takes up something, and nothing that has not arrived. -/
  consumed_le : ∀ {l b n}, look l = .item b n → 0 < n ∧ n ≤ l.length
  /-- What arrives later does not change a verdict. -/
  stable : ∀ {l}, look l ≠ .more → ∀ m, look (l ++ m) = look l

namespace Decoder

variable {α β ε : Type} (D : Decoder α β ε)

/-- The items in a buffer, with what is left over or the reason the stream has stopped. The fuel
bounds the number of items. -/
def decodeFrom : ℕ → List α → List β × Except ε (List α)
  | 0, l => ([], .ok l)
  | fuel + 1, l =>
    match D.look l with
    | .more => ([], .ok l)
    | .item b n => (b :: (decodeFrom fuel (l.drop n)).1, (decodeFrom fuel (l.drop n)).2)
    | .stop e => ([], .error e)

/-- The items in a buffer: each of them takes up at least one symbol. -/
def decode (l : List α) : List β × Except ε (List α) := D.decodeFrom l.length l

variable {D}

/-- Fuel beyond the length of the buffer makes no difference. -/
theorem decodeFrom_eq_decode : ∀ {fuel : ℕ} {l : List α}, l.length ≤ fuel →
    D.decodeFrom fuel l = D.decode l := by
  have hgrow : ∀ {fuel : ℕ} {l : List α}, l.length ≤ fuel →
      D.decodeFrom (fuel + 1) l = D.decodeFrom fuel l := by
    intro fuel
    induction fuel with
    | zero =>
      intro l hl
      rw [List.length_eq_zero_iff.mp (Nat.le_zero.mp hl)]
      simp only [decodeFrom, D.look_nil]
    | succ fuel ih =>
      intro l hl
      rw [decodeFrom, decodeFrom.eq_2]
      cases hlook : D.look l with
      | more => rfl
      | stop e => rfl
      | item b n =>
        have hn := D.consumed_le hlook
        have hrest : (l.drop n).length ≤ fuel := by rw [List.length_drop]; omega
        simp only [ih hrest]
  intro fuel l hl
  induction fuel with
  | zero => rw [decode, Nat.le_zero.mp hl]
  | succ fuel ih =>
    rcases Nat.le_succ_iff.mp hl with hle | heq
    · rw [hgrow hle, ih hle]
    · rw [decode, heq]

theorem decode_of_more {l : List α} (h : D.look l = .more) : D.decode l = ([], .ok l) := by
  rw [← decodeFrom_eq_decode (Nat.le_succ l.length), decodeFrom, h]

theorem decode_of_stop {l : List α} {e : ε} (h : D.look l = .stop e) :
    D.decode l = ([], .error e) := by
  rw [← decodeFrom_eq_decode (Nat.le_succ l.length), decodeFrom, h]

theorem decode_of_item {l : List α} {b : β} {n : ℕ} (h : D.look l = .item b n) :
    D.decode l = (b :: (D.decode (l.drop n)).1, (D.decode (l.drop n)).2) := by
  have hrest : (l.drop n).length ≤ l.length := by rw [List.length_drop]; omega
  rw [← decodeFrom_eq_decode (Nat.le_succ l.length), decodeFrom, h]
  simp only [decodeFrom_eq_decode hrest]

theorem decode_induction {motive : List α → Prop} (more : ∀ l, D.look l = .more → motive l)
    (stop : ∀ l e, D.look l = .stop e → motive l)
    (item : ∀ l b n, D.look l = .item b n → motive (l.drop n) → motive l) (l : List α) :
    motive l := by
  induction hlen : l.length using Nat.strongRecOn generalizing l with
  | ind len ih =>
    cases hlook : D.look l with
    | more => exact more l hlook
    | stop e => exact stop l e hlook
    | item b n =>
      have hn := D.consumed_le hlook
      exact item l b n hlook (ih (l.drop n).length (by rw [List.length_drop]; omega) _ rfl)

/-- **The pieces do not matter.** -/
theorem decode_append (l m : List α) : D.decode (l ++ m) =
    match D.decode l with
    | (bs, .ok r) => (bs ++ (D.decode (r ++ m)).1, (D.decode (r ++ m)).2)
    | (bs, .error e) => (bs, .error e) := by
  induction l using D.decode_induction with
  | more l h => simp only [decode_of_more h, List.nil_append]
  | stop l e h =>
    have hstop : D.look (l ++ m) = .stop e := by rw [D.stable (by simp [h]), h]
    simp only [decode_of_stop h, decode_of_stop hstop]
  | item l b n h ih =>
    have hitem : D.look (l ++ m) = .item b n := by rw [D.stable (by simp [h]), h]
    rw [decode_of_item h, decode_of_item hitem,
      List.drop_append_of_le_length (D.consumed_le h).2, ih]
    rcases D.decode (l.drop n) with ⟨bs, e | r⟩ <;> rfl

/-! ## What an encoder has written -/

/-- The decoder takes the encoding of such an item off the front of whatever follows. -/
def ReadsBack (D : Decoder α β ε) (encode : β → List α) (P : β → Prop) : Prop :=
  ∀ b, P b → ∀ rest, D.look (encode b ++ rest) = .item b (encode b).length

variable {encode : β → List α} {P : β → Prop}

/-- The beginning of an encoding is no item, and does not stop the stream. -/
theorem ReadsBack.look_of_prefix (h : D.ReadsBack encode P) {b : β} (hb : P b) {l : List α}
    (hl : l <+: encode b) (hne : l ≠ encode b) : D.look l = .more := by
  by_contra hmore
  obtain ⟨m, hm⟩ := hl
  have hlook := h b hb []
  rw [List.append_nil] at hlook
  have hitem : D.look l = .item b (encode b).length := by
    rw [← D.stable hmore m, hm, hlook]
  have hlen : l.length + m.length = (encode b).length := by rw [← hm, List.length_append]
  have hm' : m = [] := List.length_eq_zero_iff.mp (by have := (D.consumed_le hitem).2; omega)
  exact hne (by rw [← hm, hm', List.append_nil])

/-- **A stream of encodings is read back, as far as it has arrived.** -/
theorem ReadsBack.decode_of_prefix (h : D.ReadsBack encode P) {bs : List β} (hbs : ∀ b ∈ bs, P b) :
    ∀ {l : List α}, l <+: bs.flatMap encode → ∃ bs' rest, D.decode l = (bs', .ok rest) ∧
      bs' <+: bs ∧ l = bs'.flatMap encode ++ rest ∧ (l = bs.flatMap encode → bs' = bs) := by
  induction bs with
  | nil =>
    intro l hl
    obtain rfl := List.prefix_nil.mp hl
    exact ⟨[], [], decode_of_more D.look_nil, List.prefix_rfl, rfl, fun _ ↦ rfl⟩
  | cons b bs ih =>
    intro l hl
    obtain ⟨hb, hrest⟩ := List.forall_mem_cons.mp hbs
    rw [List.flatMap_cons] at hl ⊢
    rcases List.prefix_or_prefix_of_prefix hl (List.prefix_append (encode b) _) with hshort | hlong
    · by_cases hl' : l = encode b
      · subst hl'
        -- exactly this item has arrived
        have hlook := h b hb []
        rw [List.append_nil] at hlook
        refine ⟨[b], [], ?_, List.prefix_append [b] bs, by simp, fun hall ↦ ?_⟩
        · rw [decode_of_item hlook, List.drop_length, decode_of_more D.look_nil]
        · have hnil : bs.flatMap encode = [] := List.self_eq_append_right.mp hall
          cases bs with
          | nil => rfl
          | cons b' bs =>
            have hb' := h b' (hrest b' List.mem_cons_self) []
            rw [(List.append_eq_nil_iff.mp hnil).1, List.append_nil, D.look_nil] at hb'
            exact nomatch hb'
      · refine ⟨[], l, decode_of_more (h.look_of_prefix hb hshort hl'), List.nil_prefix, rfl,
          fun hall ↦ absurd (hshort.eq_of_length_le ?_) hl'⟩
        rw [hall, List.length_append]
        exact Nat.le_add_right _ _
    · obtain ⟨m, rfl⟩ := hlong
      obtain ⟨bs', rest, hdecode, hpre, hm, hall⟩ :=
        ih hrest ((List.prefix_append_right_inj _).mp hl)
      refine ⟨b :: bs', rest, ?_, (List.prefix_cons_inj b).mpr hpre, ?_, fun hl ↦ ?_⟩
      · rw [decode_of_item (h b hb m), List.drop_left, hdecode]
      · rw [hm, List.flatMap_cons, List.append_assoc]
      · rw [hall (List.append_cancel_left hl)]

end Decoder
