import Aevox.App.Pipeline

/-!
# Scoped middleware and the router's segments

`use(prefix, middleware)` is meant for the part of the path space below `prefix`, and what lies
below it is decided twice: the pipeline compares bytes, the router drops empty segments first. The
byte comparison is the finer one. Whatever it accepts is below the prefix for the router too
(`segments_prefix_of_prefixMatches`), but not the other way round, and then a handler below the
prefix runs without the middleware.
-/

namespace Aevox

open Coroutine Delimited

/-! ## The two ways to compare -/

theorem prefixMatches_iff {scope path : Bytes} :
    App.prefixMatches scope path = true ↔ path = scope ∨ scope ++ [slash] <+: path := by
  rw [App.prefixMatches, Bool.and_eq_true, decide_eq_true_eq, Bool.or_eq_true, decide_eq_true_eq,
    decide_eq_true_eq]
  constructor
  · rintro ⟨⟨rest, rfl⟩, hend | hslash⟩
    · rw [List.length_append, Nat.left_eq_add, List.length_eq_zero_iff] at hend
      exact Or.inl (by rw [hend, List.append_nil])
    · rcases rest with _ | ⟨b, rest⟩
      · exact Or.inl (List.append_nil scope)
      · rw [List.getElem?_append_right (le_refl _), Nat.sub_self, List.getElem?_cons_zero,
          Option.some.injEq] at hslash
        exact Or.inr ⟨rest, by rw [hslash, List.append_assoc, List.singleton_append]⟩
  · rintro (rfl | ⟨rest, rfl⟩)
    · exact ⟨List.prefix_refl path, Or.inl rfl⟩
    · rw [List.append_assoc]
      refine ⟨List.prefix_append scope _, Or.inr ?_⟩
      rw [List.getElem?_append_right (le_refl _), Nat.sub_self, List.singleton_append,
        List.getElem?_cons_zero]

/-- A scoped middleware that is asked was registered for a prefix of the path's segments. -/
theorem segments_prefix_of_prefixMatches {scope path : Bytes}
    (h : App.prefixMatches scope path = true) : segments scope <+: segments path := by
  rcases prefixMatches_iff.mp h with rfl | ⟨rest, rfl⟩
  · exact List.prefix_refl _
  · rw [List.append_assoc, List.singleton_append, segments_eq_tokens, segments_eq_tokens,
      tokens_append_cons]
    exact List.prefix_append _ _

namespace App

variable {app : App}

/-! ## Who takes part -/

theorem mem_layers_scoped_iff {i : ℕ} {path : Bytes} :
    .scoped i ∈ (app.layers path).map Prod.fst
      ↔ ∃ entry, app.scopedMiddlewares[i]? = some entry ∧
          prefixMatches entry.scope path = true := by
  simp only [layers, globalLayers, matchingScoped, List.map_append, List.map_map, List.mem_append,
    List.mem_map, List.mem_filter, Function.comp_apply, Prod.exists, List.mem_zipIdx_iff_getElem?]
  constructor
  · rintro (⟨mw, j, -, hstage⟩ | ⟨entry, j, ⟨hget, hmatch⟩, hstage⟩)
    · exact Stage.noConfusion hstage
    · rw [Stage.scoped.inj hstage] at hget
      exact ⟨entry, hget, hmatch⟩
  · rintro ⟨entry, hget, hmatch⟩
    exact Or.inr ⟨entry, i, ⟨hget, hmatch⟩, rfl⟩

theorem ne_router_of_mem_layers {path : Bytes} {l : Stage × Middleware}
    (hl : l ∈ app.layers path) : l.1 ≠ .router := by
  rcases List.mem_append.mp hl with hl | hl
  · obtain ⟨e, -, rfl⟩ := List.mem_map.mp hl
    exact Stage.noConfusion
  · obtain ⟨e, -, rfl⟩ := List.mem_map.mp hl
    exact Stage.noConfusion

theorem forall_layers {p : Middleware → Prop} (hglobal : ∀ mw ∈ app.globalMiddlewares, p mw)
    (hscoped : ∀ e ∈ app.scopedMiddlewares, p e.middleware) {path : Bytes} :
    ∀ l ∈ app.layers path, p l.2 := by
  intro l hl
  rcases List.mem_append.mp hl with hl | hl
  · obtain ⟨e, he, rfl⟩ := List.mem_map.mp hl
    exact hglobal _ (List.fst_mem_of_mem_zipIdx he)
  · obtain ⟨e, he, rfl⟩ := List.mem_map.mp hl
    exact hscoped _ (List.fst_mem_of_mem_zipIdx (List.mem_of_mem_filter he))

/-! ## Which middleware a request cannot bypass -/

/-- Every middleware registered for `scope` is entered before the router, whatever the awaited
answers are. -/
def RunsBeforeRouter (app : App) (scope : Bytes) (req : Request) : Prop :=
  ∀ i entry, app.scopedMiddlewares[i]? = some entry → entry.scope = scope →
    (app.dispatchWithPipeline req).Meets (enters (.scoped i)) (enters .router)

/-- One scoped middleware among others that all call `next` once is entered before the router
exactly when its prefix matches as bytes. -/
theorem meets_scoped_iff (hglobal : ∀ mw ∈ app.globalMiddlewares, mw.CallsNextOnce)
    (hscoped : ∀ e ∈ app.scopedMiddlewares, e.middleware.CallsNextOnce) {i : ℕ}
    {entry : ScopedMiddlewareEntry} (hentry : app.scopedMiddlewares[i]? = some entry)
    (req : Request) :
    (app.dispatchWithPipeline req).Meets (enters (.scoped i)) (enters .router)
      ↔ prefixMatches entry.scope req.path = true := by
  have hall : ∀ l ∈ app.layers req.path, l.2.CallsNextOnce := forall_layers hglobal hscoped
  have hmem : .scoped i ∈ (app.layers req.path).map Prod.fst
      ↔ prefixMatches entry.scope req.path = true := by
    rw [mem_layers_scoped_iff, hentry]
    constructor
    · rintro ⟨entry', heq, hmatch⟩
      rwa [Option.some.inj heq]
    · exact fun hmatch ↦ ⟨entry, rfl, hmatch⟩
  rw [dispatchWithPipeline_eq, ← hmem]
  constructor
  · -- a middleware outside the chain is entered on no path, and there is a path
    intro hmeets
    by_contra hout
    have hrouter : (app.routerDispatch req).Avoids (enters (.scoped i)) :=
      avoids_routerDispatch Stage.noConfusion req
    exact not_meets_of_avoids (avoids_wrapAll ⟨hrouter, hrouter⟩ hout).1
      (live_wrapAll (live_routerDispatch req) hall) hmeets
  · exact meets_wrapAll (fun l hl ↦ ne_router_of_mem_layers hl) hall

/-- **Scoped middleware.** When all middleware call `next` once, the middleware of a prefix runs
before every handler below the prefix exactly when there is none or the path goes on from the prefix
byte by byte. -/
theorem runsBeforeRouter_iff (hglobal : ∀ mw ∈ app.globalMiddlewares, mw.CallsNextOnce)
    (hscoped : ∀ e ∈ app.scopedMiddlewares, e.middleware.CallsNextOnce) (scope : Bytes)
    (req : Request) :
    (segments scope <+: segments req.path → app.RunsBeforeRouter scope req)
      ↔ (∀ e ∈ app.scopedMiddlewares, e.scope ≠ scope) ∨ ¬segments scope <+: segments req.path ∨
          req.path = scope ∨ scope ++ [slash] <+: req.path := by
  rw [← prefixMatches_iff]
  by_cases hmatch : prefixMatches scope req.path = true
  · refine iff_of_true (fun _ i entry hentry hscope ↦ ?_) (Or.inr (Or.inr hmatch))
    rw [meets_scoped_iff hglobal hscoped hentry, hscope]
    exact hmatch
  · constructor
    · intro h
      by_cases hbelow : segments scope <+: segments req.path
      · refine Or.inl fun e he hscope ↦ hmatch ?_
        obtain ⟨i, hi⟩ := List.getElem?_of_mem he
        rw [← hscope]
        exact (meets_scoped_iff hglobal hscoped hi req).mp (h hbelow i e hi hscope)
      · exact Or.inr (Or.inl hbelow)
    · rintro (hnone | hout | hin)
      · exact fun _ i entry hentry hscope ↦
          absurd hscope (hnone entry (List.mem_of_getElem? hentry))
      · exact fun hbelow ↦ absurd hbelow hout
      · exact absurd hin hmatch

/-- An application with one middleware for `/admin` and no routes. -/
def guarded : App :=
  { platform := ⟨id, fun _ ↦ ([], []), .doubling⟩
    router := routerOf []
    globalMiddlewares := []
    scopedMiddlewares := [⟨ascii "/admin", passOn⟩] }

theorem callsNextOnce_guarded : ∀ e ∈ guarded.scopedMiddlewares, e.middleware.CallsNextOnce := by
  intro e he
  rw [List.mem_singleton.mp he]
  exact callsNextOnce_passOn

/-- The middleware for `/admin` runs on `GET /admin/users`. -/
theorem runsBeforeRouter_guarded :
    guarded.RunsBeforeRouter (ascii "/admin")
      ⟨{ method := ascii "GET", target := ascii "/admin/users" }, [], 0⟩ :=
  (@runsBeforeRouter_iff guarded (fun _ h ↦ absurd h List.not_mem_nil)
    callsNextOnce_guarded _ _).mpr (Or.inr (Or.inr (Or.inr (by decide)))) (by decide)

/-- `GET //admin/users` reaches the router around the middleware for `/admin`. -/
theorem not_runsBeforeRouter_of_double_slash :
    ¬∀ (app : App) (scope : Bytes) (req : Request), scope.head? = some slash →
      (∀ mw ∈ app.globalMiddlewares, mw.CallsNextOnce) →
      (∀ e ∈ app.scopedMiddlewares, e.middleware.CallsNextOnce) →
      segments scope <+: segments req.path → app.RunsBeforeRouter scope req := by
  intro h
  have hruns := h guarded (ascii "/admin")
    ⟨{ method := ascii "GET", target := ascii "//admin/users" }, [], 0⟩ (by decide)
    (fun _ hmw ↦ absurd hmw List.not_mem_nil) callsNextOnce_guarded (by decide)
    0 _ rfl rfl
  have hmatch : prefixMatches (ascii "/admin") (ascii "//admin/users") = true :=
    (meets_scoped_iff (fun _ hmw ↦ absurd hmw List.not_mem_nil) callsNextOnce_guarded rfl _).mp
      hruns
  revert hmatch
  decide

end App

end Aevox
