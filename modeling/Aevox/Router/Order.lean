import Aevox.Router.Soundness
import Mathlib.Data.List.Pairwise

/-!
# The order of registration

A dispatch is determined by which words are known, by the handler each word has for each method,
and by the methods that have been registered for it (`dispatch_eq`). None of this depends on the
order of the registrations, as long as no two of them compete for one slot, a slot being a method
together with a shape. What does depend on the order is which name a shared parameter node carries,
so the captured names may differ.
-/

namespace Aevox

open PreferenceWalk

variable {η : Type}

namespace Registration

/-- The method and the shape a route is registered for. -/
def slot : Registration η → Option (Fin kMethodCount × List Label)
  | .route scope method segs _ => some (method, shape (scope ++ segs))
  | .group _ _ => none

/-- Two registrations do not compete for one slot. -/
def Apart (r r' : Registration η) : Prop := ∀ s, r.slot = some s → r'.slot ≠ some s

instance : Std.Symm (Apart (η := η)) where
  symm _ _ h s hr' hr := h s hr hr'

theorem slot_of_sets {r : Registration η} {method : Fin kMethodCount} {word : List Label}
    (h : r.sets method word ≠ none) : r.slot = some (method, word) := by
  rcases r with ⟨scope, m, segs, handler⟩ | ⟨scope, segs⟩
  · rw [sets] at h
    by_cases hslot : word = shape (scope ++ segs) ∧ method = m
    · rw [slot, hslot.1, hslot.2]
    · exact absurd (if_neg hslot) h
  · exact absurd rfl h

end Registration

/-- No two routes are registered for the same method and the same shape. -/
def DistinctSlots (regs : List (Registration η)) : Prop := regs.Pairwise Registration.Apart

/-! ## What the order leaves alone -/

/-- With distinct slots, the handler registered last is the only one registered. -/
theorem latest_eq_some_iff {regs : List (Registration η)} (hdistinct : DistinctSlots regs)
    {method : Fin kMethodCount} {word : List Label} {handler : η} :
    latest regs method word = some handler ↔
      ∃ r ∈ regs, r.sets method word = some (some handler) := by
  refine ⟨exists_sets_of_latest, ?_⟩
  rintro ⟨r, hr, hsets⟩
  have hne : r.sets method word ≠ none := hsets ▸ Option.some_ne_none (some handler)
  rcases hlast : regs.reverse.findSome? (Registration.sets method word) with _ | function
  · exact absurd (List.findSome?_eq_none_iff.mp hlast r (List.mem_reverse.mpr hr)) hne
  · obtain ⟨r', hr', hsets'⟩ := List.exists_of_findSome?_eq_some hlast
    have hne' : r'.sets method word ≠ none := hsets' ▸ Option.some_ne_none function
    -- two registrations with the slot of this method and this word are one
    have hsame : r = r' := by
      by_contra hrr'
      exact List.Pairwise.forall hdistinct hr (List.mem_reverse.mp hr') hrr' _
        (Registration.slot_of_sets hne) (Registration.slot_of_sets hne')
    rw [latest, hlast, ← hsets', ← hsame, hsets, Option.join_some]

theorem latest_perm {regs regs' : List (Registration η)} (hperm : regs.Perm regs')
    (hdistinct : DistinctSlots regs) (method : Fin kMethodCount) (word : List Label) :
    latest regs method word = latest regs' method word := by
  have hdistinct' : DistinctSlots regs' := hperm.pairwise hdistinct fun h ↦ symm h
  refine Option.ext fun handler ↦ ?_
  rw [latest_eq_some_iff hdistinct, latest_eq_some_iff hdistinct']
  exact exists_congr fun r ↦ and_congr_left fun _ ↦ hperm.mem_iff

theorem known_perm {regs regs' : List (Registration η)} (hperm : regs.Perm regs') :
    known regs = known regs' := by
  funext word
  rw [known, known, Bool.eq_iff_iff, Bool.or_eq_true, Bool.or_eq_true, List.any_eq_true,
    List.any_eq_true]
  exact or_congr_right (exists_congr fun r ↦ and_congr_left fun _ ↦ hperm.mem_iff)

theorem registered_perm {regs regs' : List (Registration η)} (hperm : regs.Perm regs')
    (method : Fin kMethodCount) (word : List Label) :
    registered regs method word = registered regs' method word := hperm.any_eq

/-! ## Two answers -/

/-- The two routers invoke the same handler, or both answer 404, or both answer 405 with the same
Allow header. -/
def SameAnswer (d d' : Dispatch η) : Prop :=
  (∃ handler captured captured', d = .invoke handler captured ∧ d' = .invoke handler captured') ∨
    (d = .respond (.notFound (ascii "404 Not Found")) ∧
      d' = .respond (.notFound (ascii "404 Not Found"))) ∨
    ∃ res, res.statusCode = kStatusMethodNotAllowed ∧ d = .respond res ∧ d' = .respond res

theorem sameAnswer_answerAt {regs regs' : List (Registration η)}
    (hlatest : ∀ m word, latest regs m word = latest regs' m word)
    (hregistered : ∀ m word, registered regs m word = registered regs' m word)
    (method : Fin kMethodCount) (word : List Label) (captured captured' : List (Bytes × Bytes)) :
    SameAnswer (answerAt regs method word captured) (answerAt regs' method word captured') := by
  rw [answerAt, answerAt, listedMethods, listedMethods]
  simp only [← hlatest, ← hregistered]
  rcases latest regs method word with _ | handler
  · by_cases hany : ∃ m, registered regs m word = true
    · rw [if_pos hany]
      exact Or.inr (Or.inr ⟨_, rfl, rfl, rfl⟩)
    · rw [if_neg hany]
      exact Or.inr (Or.inl ⟨rfl, rfl⟩)
  · exact Or.inl ⟨handler, captured, captured', rfl, rfl⟩

/-- **The order of registration does not matter**, up to the names of captured parameters: the two
routers give the same answer. A method no route can have is refused by both. -/
theorem dispatch_perm {regs regs' : List (Registration η)} (hperm : regs.Perm regs')
    (hdistinct : DistinctSlots regs) (method : HttpMethod) (path : Bytes) :
    SameAnswer ((routerOf regs).dispatch method path) ((routerOf regs').dispatch method path) ∨
      method = .unknown ∧
        (routerOf regs).dispatch method path
          = .respond (.badRequest (ascii "Unknown HTTP method")) ∧
        (routerOf regs').dispatch method path
          = .respond (.badRequest (ascii "Unknown HTTP method")) := by
  rw [dispatch_eq, dispatch_eq, ← known_perm hperm]
  by_cases hm : method.index < kMethodCount
  · rw [dif_pos hm, dif_pos hm]
    left
    rcases pathScheme.walk (known regs) [] (segments path) with _ | word
    · exact Or.inr (Or.inl ⟨rfl, rfl⟩)
    · exact sameAnswer_answerAt (latest_perm hperm hdistinct) (registered_perm hperm) _ word _ _
  · rw [dif_neg hm, dif_neg hm]
    refine Or.inr ⟨?_, rfl, rfl⟩
    by_contra hne
    exact hm (HttpMethod.index_lt_iff.mpr hne)

/-- `/users/{id}` and `/users/{name}/posts` in either order. -/
theorem dispatch_perm_users :
    SameAnswer
      ((routerOf [.route [] kGet [.static (ascii "users"), .param (ascii "id") .int] (some 1),
        .route [] kGet [.static (ascii "users"), .param (ascii "name") .none,
          .static (ascii "posts")] (some 2)]).dispatch .get (ascii "/users/7/posts"))
      ((routerOf [.route [] kGet [.static (ascii "users"), .param (ascii "name") .none,
          .static (ascii "posts")] (some 2),
        .route [] kGet [.static (ascii "users"), .param (ascii "id") .int] (some 1)]).dispatch .get
          (ascii "/users/7/posts")) := by
  have hsame := dispatch_perm (List.Perm.swap
      (.route [] kGet [.static (ascii "users"), .param (ascii "name") .none,
        .static (ascii "posts")] (some 2))
      (.route [] kGet [.static (ascii "users"), .param (ascii "id") .int] (some 1)) [])
    (List.pairwise_pair.mpr fun s hs hs' ↦ absurd (hs.trans hs'.symm) (by decide))
    .get (ascii "/users/7/posts")
  exact hsame.resolve_right fun h ↦ absurd h.1 (by decide)

/-- A request with an unknown method is answered neither way. -/
theorem not_sameAnswer_of_unknown :
    ¬∀ (regs regs' : List (Registration ℕ)), regs.Perm regs' → DistinctSlots regs →
      ∀ (method : HttpMethod) (path : Bytes),
        SameAnswer ((routerOf regs).dispatch method path)
          ((routerOf regs').dispatch method path) := by
  intro h
  have hsame := h [] [] (List.Perm.refl []) List.Pairwise.nil .unknown []
  rcases hsame with ⟨handler, captured, captured', hd, -⟩ | ⟨hd, -⟩ | ⟨res, hstatus, hd, -⟩
  · cases hd
  · revert hd
    exact nofun
  · cases hd
    exact absurd hstatus (by decide)

end Aevox
