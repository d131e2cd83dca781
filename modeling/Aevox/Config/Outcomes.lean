import Aevox.Config.Keys

/-!
# What loading a configuration comes to

`create` succeeds exactly if there is no file to read, or one that is parsed and gives every key it
mentions a value the key allows. The configuration then holds, key by key, what the file gives, or
what it held before (`create_ok_iff`). Otherwise the error is about the first key in the loader's
order that is given anything else, and names it; the configuration to be overridden has no influence
on it (`create_error_iff`). Nothing is returned if it cannot be found out whether there is a file
(`create_terminates_iff`).

So files may be laid over each other: reading one over a configuration that has been read from
another is reading a file that gives each setting what the one gives it, or else the other
(`create_over_create`).
-/

namespace Aevox.Config

variable {ν : Type} {toml : Toml ν} {tbl : Table ν} {base cfg : AppConfig} {clog clog' : List Bytes}

/-! ## One file -/

/-- What the file gives for a key, if anything, is allowed. -/
def Fine (toml : Toml ν) (tbl : Table ν) (k : Key) : Prop :=
  ∀ n, said toml tbl k = some n → ∃ v, k.Says toml n v

/-- A configuration holds what the file gives for a key, or what another one holds. -/
def Merged (toml : Toml ν) (tbl : Table ν) (base cfg : AppConfig) (k : Key) : Prop :=
  match said toml tbl k with
  | none => k.get cfg = k.get base
  | some n => ∃ v, k.Says toml n v ∧ k.get cfg = some v

/-- The warnings about a section. -/
def sectionWarnings (toml : Toml ν) (tbl : Table ν) (k : Key) : List Bytes :=
  (said toml tbl k).elim [] (k.warnings toml)

/-- All the warnings about a file. -/
def allWarnings (toml : Toml ν) (tbl : Table ν) : List Bytes :=
  unrecognised "" kKnownTopLevelKeys tbl ++ sectionWarnings toml tbl .executor
    ++ sectionWarnings toml tbl .logging

theorem failure_eq_none_iff {k : Key} :
    (settings toml).failure (said toml tbl) k = none ↔ Fine toml tbl k := by
  refine Settings.failure_eq_none_iff.trans (forall₂_congr fun n _ ↦ ?_)
  exact exists_congr fun v ↦ check_eq_ok_iff

theorem failure_eq_some_iff {k : Key} {e : ConfigErrorDetail} :
    (settings toml).failure (said toml tbl) k = some e
      ↔ ∃ n, said toml tbl k = some n ∧ (k.setting toml).check n = .error e :=
  Settings.failure_eq_some_iff

theorem findSome_failure_eq_none_iff :
    keys.findSome? ((settings toml).failure (said toml tbl)) = none ↔ ∀ k, Fine toml tbl k := by
  rw [List.findSome?_eq_none_iff]
  exact ⟨fun h k ↦ failure_eq_none_iff.mp (h k (mem_keys k)),
    fun h k _ ↦ failure_eq_none_iff.mpr (h k)⟩

theorem outcome_parsed (path : Bytes) :
    (loadTomlConfig toml path (.parsed tbl) base).outcome clog
      = some (((settings toml).load (said toml tbl) keys base).1,
          clog ++ unrecognised "" kKnownTopLevelKeys tbl
            ++ ((settings toml).load (said toml tbl) keys base).2) := by
  rw [loadTomlConfig_parsed]
  rfl

theorem get_stored (k : Key) :
    k.get (keys.foldl (fun c i ↦ (settings toml).stored (said toml tbl) i c) base)
      = ((settings toml).value (said toml tbl) k).or (k.get base) := by
  rw [Settings.get_foldl_stored (settings_lawful toml) keys_nodup, if_pos (mem_keys k)]

theorem reusePort_stored :
    (keys.foldl (fun c i ↦ (settings toml).stored (said toml tbl) i c) base).reusePort
      = base.reusePort :=
  Settings.frame_foldl_stored (store_reusePort toml) _

theorem merged_iff {k : Key} (h : Fine toml tbl k) : Merged toml tbl base cfg k
    ↔ k.get cfg = ((settings toml).value (said toml tbl) k).or (k.get base) := by
  rw [Merged, Settings.value]
  cases hsaid : said toml tbl k with
  | none => rfl
  | some n =>
    obtain ⟨v, hv⟩ := h n hsaid
    have hread : (settings toml).read k n = .ok v := check_eq_ok_iff.mpr hv
    dsimp only [Option.bind_some]
    rw [hread]
    constructor
    · rintro ⟨w, hw, hget⟩
      rw [hget, ← hw.1, hv.1]
      rfl
    · exact fun hget ↦ ⟨v, hv, hget⟩

theorem fine_of_merged {k : Key} (h : Merged toml tbl base cfg k) : Fine toml tbl k := by
  intro n hn
  rw [Merged, hn] at h
  obtain ⟨v, hv, -⟩ := h
  exact ⟨v, hv⟩

/-- **What is loaded.** -/
theorem load_eq_ok_iff : ((settings toml).load (said toml tbl) keys base).1 = .ok cfg
    ↔ cfg.reusePort = base.reusePort ∧ ∀ k, Merged toml tbl base cfg k := by
  rw [Settings.load_eq]
  constructor
  · intro h
    cases hfirst : keys.findSome? ((settings toml).failure (said toml tbl)) with
    | some e =>
      rw [hfirst] at h
      exact absurd h (by simp)
    | none =>
      rw [hfirst] at h
      have hfine := findSome_failure_eq_none_iff.mp hfirst
      rw [← Except.ok.inj h]
      exact ⟨reusePort_stored, fun k ↦ (merged_iff (hfine k)).mpr (get_stored k)⟩
  · rintro ⟨hreuse, hmerged⟩
    have hfine k := fine_of_merged (hmerged k)
    rw [findSome_failure_eq_none_iff.mpr hfine]
    refine congrArg Except.ok (AppConfig.ext_get (fun k ↦ ?_) ?_)
    · rw [get_stored, (merged_iff (hfine k)).mp (hmerged k)]
    · rw [reusePort_stored, hreuse]

theorem noted_eq (k : Key) :
    (settings toml).noted (said toml tbl) k = sectionWarnings toml tbl k := rfl

theorem load_notes (h : ∀ k, Fine toml tbl k) :
    ((settings toml).load (said toml tbl) keys base).2
      = sectionWarnings toml tbl .executor ++ sectionWarnings toml tbl .logging := by
  have hquiet (ks : List Key) (hex : .executor ∉ ks) (hlog : .logging ∉ ks) :
      ks.flatMap ((settings toml).noted (said toml tbl)) = [] := by
    refine List.flatMap_eq_nil_iff.mpr fun k hk ↦ ?_
    have hwarn : k.warnings toml = fun _ ↦ [] := by
      cases k <;> first | rfl | exact absurd hk hex | exact absurd hk hlog
    rw [noted_eq, sectionWarnings, hwarn]
    cases said toml tbl k <;> rfl
  have hall : keys.takeWhile (fun k ↦ ((settings toml).failure (said toml tbl) k).isNone)
      = keys := by
    refine List.takeWhile_eq_self_iff.mpr fun k _ ↦ ?_
    rw [failure_eq_none_iff.mpr (h k)]
    rfl
  rw [Settings.load_eq, hall]
  simp only [keys, List.flatMap_append, List.flatMap_cons, List.nil_append, List.append_nil,
    hquiet topLevelKeys (by decide) (by decide),
    hquiet executorKeys (by decide) (by decide),
    hquiet loggingKeys (by decide) (by decide)]
  rfl

/-- A key at which loading ends with an error: the file gives it a value that is not allowed, and
gives none of the keys before it one. -/
structure FailsAt (toml : Toml ν) (tbl : Table ν) (before : List Key) (k : Key)
    (e : ConfigErrorDetail) : Prop where
  first : ∃ after, keys = before ++ k :: after
  fine : ∀ j ∈ before, Fine toml tbl j
  not_fine : ¬ Fine toml tbl k
  /-- The error is the one of the key's own check. -/
  check : ∃ n, said toml tbl k = some n ∧ (k.setting toml).check n = .error e
  code : e.code = .invalidValue
  key : e.key = k.path

/-- **Where loading fails.** -/
theorem load_eq_error_iff {e : ConfigErrorDetail} {notes : List Bytes} :
    (settings toml).load (said toml tbl) keys base = (.error e, notes) ↔
      ∃ before k, FailsAt toml tbl before k e ∧
        notes = before.flatMap (sectionWarnings toml tbl) := by
  rw [Settings.load_eq_error_iff]
  constructor
  · rintro ⟨before, k, after, hkeys, hk, hbefore, hnotes⟩
    obtain ⟨n, hn, hcheck⟩ := failure_eq_some_iff.mp hk
    have hnot : ¬ Fine toml tbl k := by
      rw [← failure_eq_none_iff, hk]
      simp
    obtain ⟨hcode, hkey⟩ := check_error hcheck
    exact ⟨before, k, ⟨⟨after, hkeys⟩, fun j hj ↦ failure_eq_none_iff.mp (hbefore j hj), hnot,
      ⟨n, hn, hcheck⟩, hcode, hkey⟩, hnotes⟩
  · rintro ⟨before, k, ⟨⟨after, hkeys⟩, hfine, -, hcheck, -, -⟩, hnotes⟩
    exact ⟨before, k, after, hkeys, failure_eq_some_iff.mpr hcheck,
      fun j hj ↦ failure_eq_none_iff.mpr (hfine j hj), hnotes⟩

/-- **Success.** The configuration to be overridden is returned as it is if there is no path, or if
the path is empty. Otherwise the file gives every key a value that is documented as valid, or says
nothing about it, and the configuration holds what it says, and elsewhere what it held before. All
the warnings have been written, and `reuse_port` is not for a file to set. -/
theorem create_ok_iff {files : Bytes → File ν} {path : Option Bytes} :
    (create toml files base path).outcome clog = some (.ok cfg, clog') ↔
      (path.getD [] = [] ∧ cfg = base ∧ clog' = clog) ∨
      ∃ p tbl, path = some p ∧ p ≠ [] ∧ files p = .parsed tbl ∧
        cfg.reusePort = base.reusePort ∧ (∀ k, Merged toml tbl base cfg k) ∧
        clog' = clog ++ allWarnings toml tbl := by
  have hnothing : (return base : Loading AppConfig).outcome clog = some (.ok cfg, clog')
      ↔ cfg = base ∧ clog' = clog := by
    change some ((Except.ok base : Except ConfigErrorDetail AppConfig), clog) = _ ↔ _
    rw [Option.some.injEq, Prod.mk.injEq, Except.ok.injEq, eq_comm, eq_comm (a := clog)]
  rcases path with - | p
  · rw [create, hnothing]
    simp
  by_cases hp : p = []
  · rw [create, if_pos (List.isEmpty_iff.mpr hp), hnothing]
    simp [hp]
  rw [create, if_neg (by simpa using hp)]
  cases hfile : files p with
  | parsed tbl =>
    rw [outcome_parsed, Option.some.injEq, Prod.mk.injEq, load_eq_ok_iff]
    constructor
    · rintro ⟨⟨hreuse, hmerged⟩, hclog⟩
      rw [load_notes fun k ↦ fine_of_merged (hmerged k)] at hclog
      refine .inr ⟨p, tbl, rfl, hp, hfile, hreuse, hmerged, ?_⟩
      rw [← hclog, allWarnings]
      simp only [List.append_assoc]
    · rintro (⟨hnil, -⟩ | ⟨q, tbl', hq, -, hparsed, hreuse, hmerged, hclog⟩)
      · exact absurd hnil hp
      · obtain rfl := Option.some.inj hq
        obtain rfl := File.parsed.inj (hfile.symm.trans hparsed)
        refine ⟨⟨hreuse, hmerged⟩, ?_⟩
        rw [load_notes fun k ↦ fine_of_merged (hmerged k), hclog, allWarnings]
        simp only [List.append_assoc]
  | missing | malformed _ | unreadable =>
    constructor
    · exact fun h ↦ absurd (congrArg Prod.fst (Option.some.inj h)) (by
        change ¬ (Except.error _ : Except ConfigErrorDetail AppConfig) = .ok cfg
        simp)
    · rintro (⟨hnil, -⟩ | ⟨q, tbl', hq, -, hparsed, -⟩)
      · exact absurd hnil hp
      · obtain rfl := Option.some.inj hq
        exact absurd (hfile.symm.trans hparsed) (by simp)
  | inaccessible =>
    constructor
    · exact fun h ↦ absurd h (Option.some_ne_none _).symm
    · rintro (⟨hnil, -⟩ | ⟨q, tbl', hq, -, hparsed, -⟩)
      · exact absurd hnil hp
      · obtain rfl := Option.some.inj hq
        exact absurd (hfile.symm.trans hparsed) (by simp)

/-- **Failure.** There is an error if there is no file, or one that cannot be parsed, and then it
says so with the path; or if some key is given a value that is not allowed. Then the error is about
the first such key in the loader's order, names it, and depends on nothing else; the warnings are
those about the top level and about the sections that have been entered before. -/
theorem create_error_iff {files : Bytes → File ν} {path : Option Bytes} {e : ConfigErrorDetail} :
    (create toml files base path).outcome clog = some (.error e, clog') ↔
      ∃ p, path = some p ∧ p ≠ [] ∧
        match files p with
        | .inaccessible => False
        | .missing => e = ⟨.fileNotFound, ascii "config file not found: '" ++ p ++ ascii "'", []⟩ ∧
            clog' = clog
        | .malformed description =>
          e = ⟨.parseError, ascii "TOML parse error in '" ++ p ++ ascii "': " ++ description, []⟩ ∧
            clog' = clog
        | .unreadable =>
          e = ⟨.parseError, ascii "could not read config file '" ++ p ++ ascii "'", []⟩ ∧
            clog' = clog
        | .parsed tbl => ∃ before k, FailsAt toml tbl before k e ∧
            clog' = clog ++ unrecognised "" kKnownTopLevelKeys tbl
              ++ before.flatMap (sectionWarnings toml tbl) := by
  have hnothing : (return base : Loading AppConfig).outcome clog ≠ some (.error e, clog') := by
    change some ((Except.ok base : Except ConfigErrorDetail AppConfig), clog) ≠ _
    simp
  have hthrow (d : ConfigErrorDetail) :
      (throw d : Loading AppConfig).outcome clog = some (.error e, clog')
        ↔ e = d ∧ clog' = clog := by
    change some ((Except.error d : Except ConfigErrorDetail AppConfig), clog) = _ ↔ _
    rw [Option.some.injEq, Prod.mk.injEq, Except.error.injEq, eq_comm, eq_comm (a := clog)]
  rcases path with - | p
  · rw [create]
    simp [hnothing]
  by_cases hp : p = []
  · rw [create, if_pos (List.isEmpty_iff.mpr hp)]
    simp [hnothing, hp]
  rw [create, if_neg (by simpa using hp)]
  have hpath {P : Bytes → Prop} : (∃ q, some p = some q ∧ q ≠ [] ∧ P q) ↔ P p := by
    constructor
    · rintro ⟨q, hq, -, h⟩
      exact Option.some.inj hq ▸ h
    · exact fun h ↦ ⟨p, rfl, hp, h⟩
  rw [hpath]
  cases files p with
  | inaccessible => exact iff_of_false (Option.some_ne_none _).symm id
  | missing => exact hthrow _
  | malformed description => exact hthrow _
  | unreadable => exact hthrow _
  | parsed tbl =>
    dsimp only
    rw [outcome_parsed, Option.some.injEq, Prod.mk.injEq]
    constructor
    · rintro ⟨hresult, hclog⟩
      obtain ⟨before, k, hfails, hnotes⟩ := load_eq_error_iff.mp (Prod.ext hresult rfl)
      refine ⟨before, k, hfails, ?_⟩
      rw [← hclog, ← hnotes]
    · rintro ⟨before, k, hfails, hclog⟩
      have hload : (settings toml).load (said toml tbl) keys base = _ :=
        load_eq_error_iff.mpr ⟨before, k, hfails, rfl⟩
      rw [hload]
      exact ⟨rfl, hclog.symm⟩

/-- The process ends if `exists` throws, and only then. -/
theorem create_terminates_iff {files : Bytes → File ν} {path : Option Bytes} :
    (create toml files base path).outcome clog = none ↔
      ∃ p, path = some p ∧ p ≠ [] ∧ files p = .inaccessible := by
  rcases path with - | p
  · exact iff_of_false (Option.some_ne_none _) (by simp)
  by_cases hp : p = []
  · rw [create, if_pos (List.isEmpty_iff.mpr hp)]
    exact iff_of_false (Option.some_ne_none _) (by simp [hp])
  rw [create, if_neg (by simpa using hp)]
  cases hfile : files p with
  | inaccessible => exact iff_of_true rfl ⟨p, rfl, hp, hfile⟩
  | parsed tbl =>
    rw [outcome_parsed]
    exact iff_of_false (Option.some_ne_none _) (by simp [hfile])
  | missing | malformed _ | unreadable =>
    exact iff_of_false (Option.some_ne_none _) (by simp [hfile])

/-! ## One file over another -/

/-- A section that is no table. -/
def Broken (toml : Toml ν) (tbl : Table ν) (name : Bytes) : Prop :=
  ∃ node, tbl.get name = some node ∧ toml.table node = none

instance (toml : Toml ν) (tbl : Table ν) (name : Bytes) : Decidable (Broken toml tbl name) :=
  decidable_of_iff ((tbl.get name).any fun node ↦ (toml.table node).isNone)
    (by simp [Broken, Option.any_eq_true])

/-- A file that gives each setting what the upper one gives it, or else the lower one. A section is
no table only where the upper file's is none, and the settings of such a section do not matter. -/
structure Overlays (toml : Toml ν) (upper lower tbl : Table ν) : Prop where
  setting : ∀ k : Key, k.isSection = false → (∀ name ∈ k.inSection, ¬Broken toml upper name) →
    said toml tbl k = (said toml upper k).or (said toml lower k)
  broken : ∀ k : Key, k.isSection = true → (Broken toml tbl k.path ↔ Broken toml upper k.path)

/-- A section fails if it is no table, with the same error wherever it is. -/
theorem failure_section (toml : Toml ν) {k : Key} (hk : k.isSection = true) : ∃ e, ∀ tbl : Table ν,
    (Broken toml tbl k.path → (settings toml).failure (said toml tbl) k = some e) ∧
      (¬Broken toml tbl k.path → (settings toml).failure (said toml tbl) k = none) := by
  have hsection {k : Key} {e : ConfigErrorDetail} (hsaid : ∀ tbl, said toml tbl k = tbl.get k.path)
      (hnone : ∀ n, toml.table n = none → (k.setting toml).check n = .error e)
      (hsome : ∀ n, toml.table n ≠ none → ∃ v, k.Says toml n v) (tbl : Table ν) :
      (Broken toml tbl k.path → (settings toml).failure (said toml tbl) k = some e) ∧
        (¬Broken toml tbl k.path → (settings toml).failure (said toml tbl) k = none) := by
    refine ⟨?_, fun hwhole ↦ failure_eq_none_iff.mpr fun n hn ↦ hsome n fun htable ↦ ?_⟩
    · rintro ⟨n, hn, htable⟩
      exact failure_eq_some_iff.mpr ⟨n, (hsaid tbl).trans hn, hnone n htable⟩
    · exact hwhole ⟨n, (hsaid tbl).symm.trans hn, htable⟩
  have hsays {n : ν} (h : toml.table n ≠ none) :
      ∃ v : Unit, (toml.table n).map (fun _ ↦ ()) = some v ∧ True := by
    obtain ⟨inner, hinner⟩ := Option.ne_none_iff_exists'.mp h
    exact ⟨(), by rw [hinner]; rfl, trivial⟩
  cases k with
  | executor =>
    refine ⟨⟨.invalidValue, ascii "'executor' must be a TOML table section", ascii "executor"⟩,
      hsection (fun _ ↦ rfl) (fun n htable ↦ ?_) fun n ↦ hsays⟩
    rw [Key.setting, Key.tableSetting]
    dsimp only
    rw [htable]
  | logging =>
    refine ⟨⟨.invalidValue, ascii "'logging' must be a TOML table section", ascii "logging"⟩,
      hsection (fun _ ↦ rfl) (fun n htable ↦ ?_) fun n ↦ hsays⟩
    rw [Key.setting, Key.tableSetting]
    dsimp only
    rw [htable]
  | _ => exact absurd hk Bool.false_ne_true

theorem said_of_broken {k : Key} {name : Bytes} (hk : k.inSection = some name)
    (h : Broken toml tbl name) : said toml tbl k = none := by
  obtain ⟨node, hnode, htable⟩ := h
  rw [said, hk]
  simp only [hnode, htable, Option.bind_eq_bind, Option.bind_some, Option.bind_none]

theorem inSection_path {k : Key} {name : Bytes} (hk : k.inSection = some name) :
    ∃ j : Key, j.isSection = true ∧ j.path = name := by
  cases k with
  | threadCount | cpuPoolThreads | drainTimeout => exact ⟨.executor, rfl, Option.some.inj hk⟩
  | enabled | level | format | destination | filePath | queueCapacity =>
    exact ⟨.logging, rfl, Option.some.inj hk⟩
  | _ => cases hk

theorem Overlays.failure_eq {upper lower : Table ν} (h : Overlays toml upper lower tbl)
    (hlower : ∀ k, Fine toml lower k) (k : Key) :
    (settings toml).failure (said toml tbl) k = (settings toml).failure (said toml upper) k := by
  by_cases hk : k.isSection = true
  · obtain ⟨e, he⟩ := failure_section toml hk
    by_cases hbroken : Broken toml upper k.path
    · rw [(he tbl).1 ((h.broken k hk).mpr hbroken), (he upper).1 hbroken]
    · rw [(he tbl).2 fun htbl ↦ hbroken ((h.broken k hk).mp htbl), (he upper).2 hbroken]
  · by_cases hin : ∀ name ∈ k.inSection, ¬Broken toml upper name
    · exact Settings.failure_or (h.setting k (Bool.eq_false_iff.mpr hk) hin)
        (failure_eq_none_iff.mpr (hlower k))
    · -- neither file gives the setting anything
      push Not at hin
      obtain ⟨name, hname, hbroken⟩ := hin
      obtain ⟨j, hj, rfl⟩ := inSection_path hname
      rw [Settings.failure, Settings.failure, said_of_broken hname hbroken,
        said_of_broken hname ((h.broken j hj).mpr hbroken)]

theorem load_overlays {upper lower : Table ν} {c : AppConfig} (h : Overlays toml upper lower tbl)
    (hlower : ((settings toml).load (said toml lower) keys base).1 = .ok c) :
    ((settings toml).load (said toml tbl) keys base).1
      = ((settings toml).load (said toml upper) keys c).1 := by
  obtain ⟨hreuse, hmerged⟩ := load_eq_ok_iff.mp hlower
  have hfine k := fine_of_merged (hmerged k)
  rw [Settings.load_eq, Settings.load_eq, funext (h.failure_eq hfine)]
  dsimp only
  cases hfirst : keys.findSome? ((settings toml).failure (said toml upper)) with
  | some e => rfl
  | none =>
    have hupper k : (settings toml).failure (said toml upper) k = none :=
      failure_eq_none_iff.mpr (findSome_failure_eq_none_iff.mp hfirst k)
    refine congrArg Except.ok (AppConfig.ext_get (fun k ↦ ?_) ?_)
    · by_cases hk : k.isSection = true
      · cases k with
        | executor | logging => rfl
        | _ => cases hk
      · have hwhole : ∀ name ∈ k.inSection, ¬Broken toml upper name := by
          intro name hname hbroken
          obtain ⟨j, hj, rfl⟩ := inSection_path hname
          obtain ⟨e, he⟩ := failure_section toml hj
          exact absurd (((he upper).1 hbroken).symm.trans (hupper j)) (Option.some_ne_none e)
        rw [get_stored, get_stored,
          Settings.value_or (h.setting k (Bool.eq_false_iff.mpr hk) hwhole) (hupper k),
          (merged_iff (hfine k)).mp (hmerged k), Option.or_assoc]
    · rw [reusePort_stored, reusePort_stored, hreuse]

/-- **Files over each other.** If one file is read over a configuration that has been read from
another, what is returned, an error included, is what is returned for a file that gives each setting
what the upper file gives it, or else the lower one. -/
theorem create_over_create {files : Bytes → File ν} {lower upper merged : Bytes}
    {t₁ t₂ t : Table ν} {c : AppConfig} (hlower : files lower = .parsed t₁)
    (hupper : files upper = .parsed t₂) (hmerged : files merged = .parsed t)
    (hpaths : lower ≠ [] ∧ upper ≠ [] ∧ merged ≠ []) (hover : Overlays toml t₂ t₁ t)
    (hc : (create toml files base (some lower)).outcome clog = some (.ok c, clog')) :
    ((create toml files base (some merged)).outcome clog).map Prod.fst
      = ((create toml files c (some upper)).outcome clog').map Prod.fst := by
  have hcreate {p : Bytes} (hp : p ≠ []) (base : AppConfig) :
      create toml files base (some p) = loadTomlConfig toml p (files p) base := by
    rw [create, if_neg (by simpa using hp)]
  rw [hcreate hpaths.1, hlower, outcome_parsed] at hc
  rw [hcreate hpaths.2.1, hcreate hpaths.2.2, hupper, hmerged, outcome_parsed, outcome_parsed]
  exact congrArg some (load_overlays hover (congrArg Prod.fst (Option.some.inj hc)))

/-! ### Two files -/

/-- Nodes that are what they are written as. -/
inductive Node where
  | integer (z : ℤ)
  | string (s : Bytes)
  | table (entries : List (Bytes × Node))

def Node.reading : Toml Node where
  integer
    | .integer z => some z
    | _ => none
  boolean _ := none
  string
    | .string s => some s
    | _ => none
  table
    | .table entries => some entries
    | _ => none

/-- A file with a port and the threads, one with another port, the pool and a level, and both. -/
def twoFiles (path : Bytes) : File Node :=
  let port n := (ascii "port", Node.integer n)
  let threads := (ascii "thread_count", Node.integer 2)
  let pool := (ascii "cpu_pool_threads", Node.integer 8)
  let executor settings := (ascii "executor", Node.table settings)
  let logging := (ascii "logging", Node.table [(ascii "level", .string (ascii "debug"))])
  if path = ascii "lower" then .parsed [port 9000, executor [threads]]
  else if path = ascii "upper" then .parsed [port 80, executor [pool], logging]
  else if path = ascii "both" then .parsed [port 80, executor [threads, pool], logging]
  else .missing

theorem create_over_create_both :
    ((create Node.reading twoFiles {} (some (ascii "both"))).outcome []).map Prod.fst
      = ((create Node.reading twoFiles { port := 9000, executor := { threadCount := 2 } }
          (some (ascii "upper"))).outcome []).map Prod.fst := by
  have hlower : twoFiles (ascii "lower") = .parsed _ := rfl
  have hupper : twoFiles (ascii "upper") = .parsed _ := rfl
  have hboth : twoFiles (ascii "both") = .parsed _ := rfl
  have hc : (create Node.reading twoFiles {} (some (ascii "lower"))).outcome []
      = some (.ok _, []) := rfl
  refine create_over_create hlower hupper hboth (by decide) ⟨fun k hk _ ↦ ?_, fun k hk ↦ ?_⟩ hc
  · cases k with
    | executor | logging => cases hk
    | _ => rfl
  · cases k with
    | executor | logging => decide
    | _ => cases hk

end Aevox.Config
