import Aevox.App.Lifecycle
import Aevox.Grpc.Session
import Mathlib.Data.List.TakeWhile

/-!
# Registering methods

A plugin is given its methods, then installed, started and stopped. A method is a path of two parts
with a handler. The first handler given for a path stays, and with the installation the table is
closed: nothing changes it any more, so that sessions may refer to it while they run.

So what the table holds after any calls is what they have asked for: for a path of the right form
the first handler that was offered before the plugin was installed, and nothing for any other path
(`find_run`). A request that is otherwise in order goes to this handler (`handles_iff`).
-/

namespace Aevox

namespace Grpc

/-! ## The plugin -/

/-- The errors of `add_unary_method`. -/
inductive RegistrationError where
  | invalidMethod
  | duplicateMethod
  | alreadyInstalled
  deriving DecidableEq

/-- `to_plugin_error`, for the errors a configuration or a message may lead to -/
def toPluginError : GrpcError → PluginError
  | .invalidConfig => .invalidArgument
  | .protocolError | .messageTooLarge | .compressionUnsupported => .installFailed

/-- `method.find('/', pos)` -/
def findSlash (method : Bytes) (pos : ℕ) : Option ℕ :=
  ((method.drop pos).findIdx? fun b ↦ b == slash).map (· + pos)

def isValidMethod (method : Bytes) : Bool :=
  if !(ascii "/").isPrefixOf method then false
  else
    match findSlash method 1 with
    | none => false
    | some secondSlash =>
      if secondSlash = 1 ∨ secondSlash + 1 = method.length then false
      else (findSlash method (secondSlash + 1)).isNone

/-- `std::unordered_map<std::string, UnaryHandler>` -/
structure MethodMap (H : Type) where
  entries : List (Bytes × H)
  nodup : (entries.map Prod.fst).Nodup

namespace MethodMap

variable {H : Type}

def empty : MethodMap H := ⟨[], List.nodup_nil⟩

def find (map : MethodMap H) (method : Bytes) : Option H := map.entries.lookup method

theorem find_eq_none_iff {map : MethodMap H} {method : Bytes} :
    map.find method = none ↔ method ∉ map.entries.map Prod.fst := by
  rw [find, List.lookup_eq_none_iff]
  simp only [List.mem_map, not_exists, not_and, bne_iff_ne]
  exact forall₂_congr fun entry _ ↦ ne_comm

/-- `emplace`, which also says whether there was no entry for the key before -/
def emplace (map : MethodMap H) (method : Bytes) (handler : H) : MethodMap H × Bool :=
  if h : map.find method = none then
    (⟨(method, handler) :: map.entries, List.nodup_cons.mpr ⟨find_eq_none_iff.mp h, map.nodup⟩⟩,
      true)
  else (map, false)

theorem find_emplace (map : MethodMap H) (method key : Bytes) (handler : H) :
    (map.emplace method handler).1.find key
      = (map.find key).or (if key = method then some handler else none) := by
  rw [emplace]
  split
  · rename_i hnone
    rw [find, List.lookup_cons]
    by_cases hkey : key = method
    · subst hkey
      rw [hnone]
      simp
    · rw [if_neg hkey, Option.or_none, beq_eq_false_iff_ne.mpr hkey]
      rfl
  · rename_i hsome
    by_cases hkey : key = method
    · subst hkey
      obtain ⟨h, hh⟩ := Option.ne_none_iff_exists'.mp hsome
      rw [hh, Option.some_or]
    · rw [if_neg hkey, Option.or_none]

end MethodMap

/-- `Plugin::Impl`, without the executor's own state and the runner thread. -/
structure Plugin (H : Type) where
  config : PluginConfig
  unaryMethods : MethodMap H := .empty
  /-- There is an executor. -/
  executor : Bool := false
  installed : Bool := false
  running : Bool := false

namespace Plugin

variable {H : Type}

def addUnaryMethod (p : Plugin H) (method : Bytes) (handler : Option H) :
    Except RegistrationError Unit × Plugin H :=
  if p.installed then (.error .alreadyInstalled, p)
  else
    match handler with
    | none => (.error .invalidMethod, p)
    | some handler =>
      if !isValidMethod method then (.error .invalidMethod, p)
      else
        let (map, inserted) := p.unaryMethods.emplace method handler
        (if inserted then .ok () else .error .duplicateMethod, { p with unaryMethods := map })

def install (p : Plugin H) : Except PluginError Unit × Plugin H :=
  if p.installed then (.error .alreadyInstalled, p)
  else
    match validateConfig p.config with
    | .error e => (.error (toPluginError e), { p with installed := false })
    | .ok () => (.ok (), { p with installed := true })

/-- `start`, given whether the executor can listen on the port -/
def start (p : Plugin H) (listens : Bool) : Except PluginError Unit × Plugin H :=
  if p.running then (.error .alreadyRunning, p)
  else
    match validateConfig p.config with
    | .error e => (.error (toPluginError e), { p with running := false })
    | .ok () =>
      if listens then (.ok (), { p with executor := true, running := true })
      else (.error .startFailed, { p with executor := false, running := false })

def stop (p : Plugin H) : Plugin H := { p with running := false }

/-- The calls of a plugin's interface. -/
inductive Call (H : Type) where
  | addUnaryMethod (method : Bytes) (handler : Option H)
  | install
  | start (listens : Bool)
  | stop

def step (p : Plugin H) : Call H → Plugin H
  | .addUnaryMethod method handler => (p.addUnaryMethod method handler).2
  | .install => p.install.2
  | .start listens => (p.start listens).2
  | .stop => p.stop

/-- A plugin after some calls. -/
def run (config : PluginConfig) (calls : List (Call H)) : Plugin H :=
  calls.foldl step { config := config }

/-- The handler a request is passed to, with the message, or the status it is answered with. -/
def handles (p : Plugin H) (state : StreamState) : Except GrpcStatus (Option H × UnaryRequest) :=
  (state.admission p.config (p.unaryMethods.entries.map Prod.fst)).map fun request ↦
    (p.unaryMethods.find state.method, request)

/-! ## Paths -/

end Plugin

/-- The form of a path: a slash, a service, a slash and a method of the service. -/
def IsMethodPath (path : Bytes) : Prop :=
  ∃ service method, path = slash :: service ++ slash :: method ∧ service ≠ [] ∧ method ≠ [] ∧
    slash ∉ service ∧ slash ∉ method

theorem findSlash_eq_none_iff {method : Bytes} {pos : ℕ} :
    findSlash method pos = none ↔ slash ∉ method.drop pos := by
  rw [findSlash, Option.map_eq_none_iff, List.findIdx?_eq_none_iff]
  simp only [beq_eq_false_iff_ne]
  exact ⟨fun h hslash ↦ h slash hslash rfl, fun h b hb heq ↦ h (heq ▸ hb)⟩

theorem findSlash_append (front : Bytes) {before : Bytes} (after : Bytes) (h : slash ∉ before) :
    findSlash (front ++ (before ++ slash :: after)) front.length
      = some (before.length + front.length) := by
  have hbefore : before.findIdx? (fun b ↦ b == slash) = none := by
    rw [List.findIdx?_eq_none_iff]
    exact fun b hb ↦ beq_eq_false_iff_ne.mpr fun heq ↦ h (heq ▸ hb)
  rw [findSlash, List.drop_left, List.findIdx?_append, hbefore, List.findIdx?_cons]
  simp

theorem isValidMethod_append {service : Bytes} (method : Bytes) (h : slash ∉ service) :
    isValidMethod (slash :: service ++ slash :: method) = true
      ↔ service ≠ [] ∧ method ≠ [] ∧ slash ∉ method := by
  have hprefix : (ascii "/").isPrefixOf (slash :: service ++ slash :: method) = true :=
    List.isPrefixOf_iff_prefix.mpr ⟨service ++ slash :: method, rfl⟩
  have hfind : findSlash (slash :: service ++ slash :: method) 1 = some (service.length + 1) :=
    findSlash_append [slash] method h
  have hdrop : (slash :: service ++ slash :: method).drop (service.length + 1 + 1) = method := by
    have hlength : (slash :: service ++ [slash]).length = service.length + 1 + 1 := by simp
    rw [List.append_cons, ← hlength, List.drop_left]
  rw [isValidMethod, hprefix, hfind]
  dsimp only
  rw [Bool.not_true, if_neg Bool.false_ne_true]
  split
  · rename_i hempty
    have hlength : service.length = 0 ∨ method.length = 0 := by
      simp only [List.length_append, List.length_cons] at hempty
      omega
    rw [List.length_eq_zero_iff, List.length_eq_zero_iff] at hlength
    constructor
    · exact fun h ↦ absurd h Bool.false_ne_true
    · rintro ⟨hs, hm, -⟩
      exact (hlength.elim hs hm).elim
  · rename_i hlengths
    have hservice : service ≠ [] := by
      rintro rfl
      exact hlengths (.inl rfl)
    have hmethod : method ≠ [] := by
      rintro rfl
      exact hlengths (.inr (by simp))
    rw [Option.isNone_iff_eq_none, findSlash_eq_none_iff, hdrop]
    exact ⟨fun h ↦ ⟨hservice, hmethod, h⟩, fun h ↦ h.2.2⟩

theorem isValidMethod_of_not_mem {rest : Bytes} (h : slash ∉ rest) :
    isValidMethod (slash :: rest) = false := by
  have hfind : findSlash (slash :: rest) 1 = none := findSlash_eq_none_iff.mpr h
  rw [isValidMethod, hfind]
  split <;> rfl

/-- **The check accepts the paths of the right form.** -/
theorem isValidMethod_iff {method : Bytes} : isValidMethod method = true ↔ IsMethodPath method := by
  constructor
  · intro h
    have hprefix : (ascii "/").isPrefixOf method = true := by
      by_contra hno
      rw [isValidMethod, Bool.eq_false_iff.mpr hno, Bool.not_false, if_pos rfl] at h
      exact Bool.false_ne_true h
    obtain ⟨rest, rfl⟩ := List.isPrefixOf_iff_prefix.mp hprefix
    change isValidMethod (slash :: rest) = true at h
    by_cases hslash : slash ∈ rest
    · obtain ⟨service, name, rfl, hservice⟩ := List.eq_append_cons_of_mem hslash
      obtain ⟨hs, hn, hname⟩ := (isValidMethod_append name hservice).mp h
      exact ⟨service, name, rfl, hs, hn, hservice, hname⟩
    · rw [isValidMethod_of_not_mem hslash] at h
      exact absurd h Bool.false_ne_true
  · rintro ⟨service, name, rfl, hs, hn, hservice, hname⟩
    exact (isValidMethod_append name hservice).mpr ⟨hs, hn, hname⟩

/-! ## The table -/

namespace Plugin

variable {H : Type}

/-- The handler a call offers for a path. -/
def offer (path : Bytes) : Call H → Option H
  | .addUnaryMethod method (some handler) => if method = path then some handler else none
  | _ => none

/-- The handlers offered for a path, in the order of the calls. -/
def offers (path : Bytes) (calls : List (Call H)) : List H := calls.filterMap (offer path)

/-- The call installs a plugin of this configuration that is not installed yet. -/
def installs (config : PluginConfig) : Call H → Bool
  | .install => (validateConfig config).isOk
  | _ => false

/-- The calls before the plugin is installed. -/
def beforeInstall (config : PluginConfig) (calls : List (Call H)) : List (Call H) :=
  calls.takeWhile fun call ↦ !installs config call

/-- What a call does to the table, to the flag that closes it, and to nothing else. -/
structure Steps (p : Plugin H) (call : Call H) (path : Bytes) (q : Plugin H) : Prop where
  config : q.config = p.config
  installed : q.installed = (p.installed || installs p.config call)
  find : q.unaryMethods.find path =
    if p.installed then p.unaryMethods.find path
    else (p.unaryMethods.find path).or (if isValidMethod path then offer path call else none)

theorem Steps.of_same {p q : Plugin H} {call : Call H} {path : Bytes}
    (hcall : offer path call = none) (hconfig : q.config = p.config)
    (hmethods : q.unaryMethods = p.unaryMethods)
    (hinstalled : q.installed = (p.installed || installs p.config call)) :
    Steps p call path q := by
  refine ⟨hconfig, hinstalled, ?_⟩
  rw [hmethods, hcall, ite_self, Option.or_none, ite_self]

theorem steps_addUnaryMethod (p : Plugin H) (method : Bytes) (handler : H) (path : Bytes) :
    Steps p (.addUnaryMethod method (some handler)) path
      (p.addUnaryMethod method (some handler)).2 := by
  rw [addUnaryMethod]
  split
  · rename_i hinstalled
    refine ⟨rfl, (Bool.or_false _).symm, ?_⟩
    rw [if_pos hinstalled]
  · rename_i hinstalled
    dsimp only
    cases hvalid : isValidMethod method with
    | false =>
      refine ⟨rfl, (Bool.or_false _).symm, ?_⟩
      rw [Bool.not_false, if_pos rfl, if_neg hinstalled, offer]
      by_cases hpath : method = path
      · rw [← hpath, hvalid, if_neg Bool.false_ne_true, Option.or_none]
      · rw [if_neg hpath, ite_self, Option.or_none]
    | true =>
      refine ⟨rfl, (Bool.or_false _).symm, ?_⟩
      rw [Bool.not_true, if_neg Bool.false_ne_true, if_neg hinstalled, offer]
      refine (MethodMap.find_emplace _ method path handler).trans ?_
      by_cases hpath : method = path
      · rw [if_pos hpath.symm, if_pos hpath, ← hpath, hvalid, if_pos rfl]
      · rw [if_neg (Ne.symm hpath), if_neg hpath, ite_self]

theorem steps_step (p : Plugin H) (call : Call H) (path : Bytes) :
    Steps p call path (p.step call) := by
  rcases call with ⟨method, _ | handler⟩ | _ | listens | _
  · rw [step, addUnaryMethod]
    split <;> exact .of_same rfl rfl rfl (Bool.or_false _).symm
  · exact steps_addUnaryMethod p method handler path
  · rw [step, install]
    split
    · rename_i hinstalled
      refine .of_same rfl rfl rfl ?_
      rw [hinstalled, Bool.true_or]
    · rename_i hinstalled
      split
      · rename_i hconfig
        refine .of_same rfl rfl rfl ?_
        rw [Bool.eq_false_iff.mpr hinstalled, installs, hconfig]
        rfl
      · rename_i hconfig
        refine .of_same rfl rfl rfl ?_
        rw [Bool.eq_false_iff.mpr hinstalled, installs, hconfig]
        rfl
  · rw [step, start]
    split
    · exact .of_same rfl rfl rfl (Bool.or_false _).symm
    · split
      · exact .of_same rfl rfl rfl (Bool.or_false _).symm
      · split <;> exact .of_same rfl rfl rfl (Bool.or_false _).symm
  · exact .of_same rfl rfl rfl (Bool.or_false _).symm

theorem find_foldl (path : Bytes) (calls : List (Call H)) : ∀ p : Plugin H,
    (calls.foldl step p).unaryMethods.find path =
      if p.installed then p.unaryMethods.find path
      else (p.unaryMethods.find path).or
        (if isValidMethod path then (offers path (beforeInstall p.config calls)).head?
          else none) := by
  induction calls with
  | nil =>
    intro p
    simp [offers, beforeInstall]
  | cons call calls ih =>
    intro p
    obtain ⟨hconfig, hinstalled, hfind⟩ := steps_step p call path
    rw [List.foldl_cons, ih, hconfig, hinstalled, hfind]
    cases p.installed with
    | true => rfl
    | false =>
      rw [beforeInstall, beforeInstall, List.takeWhile_cons]
      cases hinstalls : installs p.config call with
      | true =>
        have hoffer : offer path call = none := by
          rcases call with _ | _ | _ | _ <;> first | rfl | exact absurd hinstalls Bool.false_ne_true
        rw [hoffer]
        rfl
      | false =>
        simp only [Bool.or_false, Bool.false_eq_true, if_false, Bool.not_false, if_true]
        rw [Option.or_assoc, offers, offers, List.filterMap_cons]
        cases isValidMethod path with
        | false => rfl
        | true => cases offer path call <;> rfl

/-- **What the table holds** is what the calls before the installation have asked for. -/
theorem find_run (config : PluginConfig) (calls : List (Call H)) (path : Bytes) :
    (run config calls).unaryMethods.find path =
      if isValidMethod path then (offers path (beforeInstall config calls)).head? else none := by
  rw [run, find_foldl, if_neg Bool.false_ne_true]
  exact Option.none_or

theorem config_run (config : PluginConfig) (calls : List (Call H)) :
    (run config calls).config = config := by
  have hfoldl : ∀ p : Plugin H, (calls.foldl step p).config = p.config := by
    induction calls with
    | nil => exact fun p ↦ rfl
    | cons call calls ih => exact fun p ↦ (ih _).trans (steps_step p call []).config
  exact hfoldl _

theorem installed_run (config : PluginConfig) (calls : List (Call H)) :
    (run config calls).installed = calls.any (installs config) := by
  have hfoldl : ∀ p : Plugin H,
      (calls.foldl step p).installed = (p.installed || calls.any (installs p.config)) := by
    induction calls with
    | nil => exact fun p ↦ (Bool.or_false _).symm
    | cons call calls ih =>
      intro p
      obtain ⟨hconfig, hinstalled, -⟩ := steps_step p call []
      rw [List.foldl_cons, ih, hconfig, hinstalled, List.any_cons, Bool.or_assoc]
  exact (hfoldl _).trans (Bool.false_or _)

/-! ## Registrations and requests -/

/-- **A registration succeeds** if it is made before the plugin is installed, with a handler and a
path of the right form, and no handler has been offered for this path before. -/
theorem addUnaryMethod_run_iff {config : PluginConfig} {calls : List (Call H)} {path : Bytes}
    {handler : Option H} : ((run config calls).addUnaryMethod path handler).1 = .ok () ↔
      (∀ call ∈ calls, installs config call = false) ∧ handler ≠ none ∧ IsMethodPath path ∧
        offers path calls = [] := by
  have hopen : (run config calls).installed = false
      ↔ ∀ call ∈ calls, installs config call = false := by
    rw [installed_run, List.any_eq_false]
    simp only [Bool.not_eq_true]
  rw [← hopen, ← isValidMethod_iff]
  rcases handler with - | handler
  · rw [addUnaryMethod]
    split <;> simp
  rw [addUnaryMethod]
  cases hinstalled : (run config calls).installed with
  | true => simp
  | false =>
    cases hvalid : isValidMethod path with
    | false => simp
    | true =>
      have hall : beforeInstall config calls = calls :=
        List.takeWhile_eq_self_iff.mpr fun call hcall ↦ by
          rw [hopen.mp hinstalled call hcall, Bool.not_false]
      have hfind := find_run config calls path
      rw [hvalid, if_pos rfl, hall] at hfind
      simp only [Bool.false_eq_true, if_false, Bool.not_true, MethodMap.emplace, hfind,
        List.head?_eq_none_iff]
      by_cases hoffers : offers path calls = [] <;> simp [hoffers]

theorem mem_methods_iff {p : Plugin H} {path : Bytes} :
    path ∈ p.unaryMethods.entries.map Prod.fst ↔ p.unaryMethods.find path ≠ none :=
  not_iff_not.mp ((not_not.trans MethodMap.find_eq_none_iff).symm)

/-- Which methods there are decides only whether the request's own is among them. -/
theorem admission_eq_ok_iff {config : PluginConfig} {methods : List Bytes} {state : StreamState}
    {request : UnaryRequest} : state.admission config methods = .ok request
      ↔ state.method ∈ methods ∧ state.admission config [state.method] = .ok request := by
  by_cases hmem : state.method ∈ methods
  · have hsame : state.admission config methods = state.admission config [state.method] := by
      simp only [StreamState.admission, hmem, List.mem_singleton, not_true_eq_false]
    rw [hsame]
    exact (and_iff_right hmem).symm
  · refine ⟨fun h ↦ absurd h ?_, fun h ↦ absurd h.1 hmem⟩
    rw [StreamState.admission]
    split
    · simp
    · rw [if_pos hmem]
      split_ifs <;> simp

/-- **Which handler answers.** A request gets to a handler exactly if it is otherwise in order and
its path has the right form and was given a handler before the plugin was installed. It is the first
that was offered for the path, whatever has been called since. -/
theorem handles_iff {config : PluginConfig} {calls : List (Call H)} {state : StreamState}
    {found : Option H} {request : UnaryRequest} :
    (run config calls).handles state = .ok (found, request) ↔
      ∃ handler, found = some handler ∧ IsMethodPath state.method ∧
        (offers state.method (beforeInstall config calls)).head? = some handler ∧
        state.admission config [state.method] = .ok request := by
  have hhandles : (run config calls).handles state = .ok (found, request) ↔
      state.admission config ((run config calls).unaryMethods.entries.map Prod.fst) = .ok request ∧
        (run config calls).unaryMethods.find state.method = found := by
    rw [handles, config_run]
    cases state.admission config _ with
    | error e => simp [Except.map]
    | ok r => simp [Except.map, and_comm]
  rw [hhandles, admission_eq_ok_iff, mem_methods_iff, find_run, ← isValidMethod_iff]
  constructor
  · rintro ⟨⟨hne, hadmission⟩, rfl⟩
    cases hvalid : isValidMethod state.method with
    | false =>
      rw [hvalid] at hne
      exact absurd rfl hne
    | true =>
      rw [hvalid, if_pos rfl] at hne
      obtain ⟨handler, hhandler⟩ := Option.ne_none_iff_exists'.mp hne
      rw [if_pos rfl]
      exact ⟨handler, hhandler, rfl, hhandler, hadmission⟩
  · rintro ⟨handler, rfl, hvalid, hhandler, hadmission⟩
    rw [if_pos hvalid, hhandler]
    exact ⟨⟨Option.some_ne_none _, hadmission⟩, rfl⟩

end Plugin

end Grpc

end Aevox
