import Aevox.Config.Loader
import Aevox.Library.Settings

/-!
# The settings of the configuration

What the loader does, said key by key. There is one key for each setting and for each of the two
sections (`Key`), a file says something about some of them (`said`), and a configuration holds a
value for each (`Key.get`). A value a file may give is one the key allows (`Key.Allowed`), which is
the documentation's range, and `Key.Says` is how a node gives it.

The loader's code is the loading of these settings in the order of the source
(`loadTomlConfig_parsed`), its checks accept exactly what a file may give (`check_eq_ok_iff`), and
storing a setting changes this one alone (`settings_lawful`).
-/

namespace Aevox.Config

/-! ## Keys -/

/-- What the loader looks for, in its order. -/
inductive Key where
  | port
  | host
  | backlog
  | maxBodySize
  | requestTimeout
  | maxHeaderCount
  | maxReadBytes
  | executor
  | threadCount
  | cpuPoolThreads
  | drainTimeout
  | logging
  | enabled
  | level
  | format
  | destination
  | filePath
  | queueCapacity
  deriving DecidableEq

namespace Key

/-- The values of a setting; all that matters of a section is that it is a table. -/
abbrev Val : Key → Type
  | host | filePath => Bytes
  | executor | logging => Unit
  | enabled => Bool
  | level => LogLevel
  | format => LogFormat
  | destination => LogDestination
  | port | backlog | maxBodySize | requestTimeout | maxHeaderCount | maxReadBytes => ℤ
  | threadCount | cpuPoolThreads | drainTimeout | queueCapacity => ℤ

/-- The name of a key in errors. -/
def path : Key → Bytes
  | port => ascii "port"
  | host => ascii "host"
  | backlog => ascii "backlog"
  | maxBodySize => ascii "max_body_size"
  | requestTimeout => ascii "request_timeout"
  | maxHeaderCount => ascii "max_header_count"
  | maxReadBytes => ascii "max_read_bytes"
  | executor => ascii "executor"
  | threadCount => ascii "executor.thread_count"
  | cpuPoolThreads => ascii "executor.cpu_pool_threads"
  | drainTimeout => ascii "executor.drain_timeout"
  | logging => ascii "logging"
  | enabled => ascii "logging.enabled"
  | level => ascii "logging.level"
  | format => ascii "logging.format"
  | destination => ascii "logging.destination"
  | filePath => ascii "logging.file_path"
  | queueCapacity => ascii "logging.queue_capacity"

/-- A key is a section, which holds settings and is none. -/
def isSection : Key → Bool
  | executor | logging => true
  | _ => false

/-- The section a key is in. -/
def inSection : Key → Option Bytes
  | threadCount | cpuPoolThreads | drainTimeout => some (ascii "executor")
  | enabled | level | format | destination | filePath | queueCapacity => some (ascii "logging")
  | _ => none

/-- What a configuration holds; `none` where there is no file path. -/
def get : (k : Key) → AppConfig → Option k.Val
  | port, c => some c.port.toNat
  | host, c => some c.host
  | backlog, c => some c.backlog.toInt
  | maxBodySize, c => some c.maxBodySize
  | requestTimeout, c => some c.requestTimeout
  | maxHeaderCount, c => some c.maxHeaderCount
  | maxReadBytes, c => some c.maxReadBytes
  | executor, _ => some ()
  | threadCount, c => some c.executor.threadCount
  | cpuPoolThreads, c => some c.executor.cpuPoolThreads
  | drainTimeout, c => some c.executor.drainTimeout
  | logging, _ => some ()
  | enabled, c => some c.logging.enabled
  | level, c => some c.logging.level
  | format, c => some c.logging.format
  | destination, c => some c.logging.destination
  | filePath, c => c.logging.filePath
  | queueCapacity, c => some c.logging.queueCapacity.toNat

/-- The values that are documented as valid. -/
def Allowed : (k : Key) → k.Val → Prop
  | port, v => 1 ≤ v ∧ v ≤ 65535
  | host, v => v ≠ []
  | backlog, v => 1 ≤ v ∧ v ≤ 65535
  | maxBodySize, v => 1 ≤ v ∧ v ≤ 2 ^ 31
  | requestTimeout, v => 1 ≤ v ∧ v ≤ 3600
  | maxHeaderCount, v => 1 ≤ v ∧ v ≤ 1000
  | maxReadBytes, v => 512 ≤ v ∧ v ≤ 2 ^ 24
  | threadCount, v => 0 ≤ v ∧ v ≤ 1024
  | cpuPoolThreads, v => 0 ≤ v ∧ v ≤ 256
  | drainTimeout, v => 1 ≤ v ∧ v ≤ 3600
  | queueCapacity, v => 1 ≤ v ∧ v ≤ 2 ^ 20
  | executor, _ | logging, _ | enabled, _ | level, _ | format, _ | destination, _
  | filePath, _ => True

variable {ν : Type} (toml : Toml ν)

/-- How a node is read. -/
def read : (k : Key) → ν → Option k.Val
  | host, n | filePath, n => toml.string n
  | executor, n | logging, n => (toml.table n).map fun _ ↦ ()
  | enabled, n => toml.boolean n
  | level, n => (toml.string n).bind fun s ↦ Setting.levels.lookup s
  | format, n => (toml.string n).bind fun s ↦ Setting.formats.lookup s
  | destination, n => (toml.string n).bind fun s ↦ Setting.destinations.lookup s
  | port, n | backlog, n | maxBodySize, n | requestTimeout, n | maxHeaderCount, n
  | maxReadBytes, n | threadCount, n | cpuPoolThreads, n | drainTimeout, n
  | queueCapacity, n => toml.integer n

/-- A node gives a value to a key. -/
def Says (k : Key) (n : ν) (v : k.Val) : Prop := k.read toml n = some v ∧ k.Allowed v

/-- The check of a section, as a setting that stores nothing. -/
def tableSetting (name : String) (message : String) : Setting ν Unit where
  name := ascii name
  check n :=
    match toml.table n with
    | none => .error ⟨.invalidValue, ascii message, ascii name⟩
    | some _ => .ok ()
  store _ base := base

def setting : (k : Key) → Setting ν k.Val
  | port => .port toml
  | host => .host toml
  | backlog => .backlog toml
  | maxBodySize => .maxBodySize toml
  | requestTimeout => .requestTimeout toml
  | maxHeaderCount => .maxHeaderCount toml
  | maxReadBytes => .maxReadBytes toml
  | executor => tableSetting toml "executor" "'executor' must be a TOML table section"
  | threadCount => .threadCount toml
  | cpuPoolThreads => .cpuPoolThreads toml
  | drainTimeout => .drainTimeout toml
  | logging => tableSetting toml "logging" "'logging' must be a TOML table section"
  | enabled => .enabled toml
  | level => .level toml
  | format => .format toml
  | destination => .destination toml
  | filePath => .filePath toml
  | queueCapacity => .queueCapacity toml

/-- The warnings a key gives rise to. -/
def warnings : Key → ν → List Bytes
  | executor, n => (toml.table n).elim [] (unrecognised "executor." kKnownExecutorKeys)
  | logging, n => (toml.table n).elim [] (unrecognised "logging." kKnownLoggingKeys)
  | _, _ => []

end Key

def topLevelKeys : List Key :=
  [.port, .host, .backlog, .maxBodySize, .requestTimeout, .maxHeaderCount, .maxReadBytes]

def executorKeys : List Key := [.threadCount, .cpuPoolThreads, .drainTimeout]

def loggingKeys : List Key := [.enabled, .level, .format, .destination, .filePath, .queueCapacity]

/-- The keys in the order of the source. -/
def keys : List Key := topLevelKeys ++ (.executor :: executorKeys ++ .logging :: loggingKeys)

theorem mem_keys (k : Key) : k ∈ keys := by
  cases k <;> decide

theorem keys_nodup : keys.Nodup := by decide

variable {ν : Type} (toml : Toml ν)

/-- The node a file gives for a key. -/
def said (tbl : Table ν) (k : Key) : Option ν :=
  match k.inSection with
  | none => tbl.get (k.setting toml).name
  | some name => do
    let node ← tbl.get name
    let inner ← toml.table node
    inner.get (k.setting toml).name

def settings : Settings Key Key.Val ν Bytes AppConfig ConfigErrorDetail where
  read k := (k.setting toml).check
  store k := (k.setting toml).store
  notes := Key.warnings toml

/-! ## The loader loads the settings -/

/-- A result with its notes, as a computation that writes them. -/
def Loading.emit (r : Except ConfigErrorDetail AppConfig × List Bytes) : Loading AppConfig :=
  ExceptT.mk fun clog ↦ some (r.1, clog ++ r.2)

section Refinement

variable {toml} {tbl : Table ν} {base : AppConfig}

open Loading

theorem emit_append (is js : List Key) :
    emit ((settings toml).load (said toml tbl) (is ++ js) base)
      = emit ((settings toml).load (said toml tbl) is base) >>= fun c ↦
          emit ((settings toml).load (said toml tbl) js c) := by
  rw [Settings.load_append]
  rcases (settings toml).load (said toml tbl) is base with ⟨e | c, notes⟩
  · rfl
  · refine funext fun clog ↦ ?_
    exact congrArg some (Prod.ext rfl (List.append_assoc clog notes _).symm)

theorem emit_cons (i j : Key) (is : List Key) :
    emit ((settings toml).load (said toml tbl) (i :: j :: is) base)
      = emit ((settings toml).load (said toml tbl) [i] base) >>= fun c ↦
          emit ((settings toml).load (said toml tbl) (j :: is) c) :=
  emit_append [i] (j :: is)

theorem load_setting (k : Key) {inner : Table ν} (hwarn : k.warnings toml = fun _ ↦ [])
    (hsaid : said toml tbl k = inner.get (k.setting toml).name) :
    (k.setting toml).load inner base
      = emit ((settings toml).load (said toml tbl) [k] base) := by
  rw [Setting.load, Settings.load, hsaid]
  cases inner.get (k.setting toml).name with
  | none =>
    exact funext fun clog ↦ congrArg some (Prod.ext rfl (List.append_nil clog).symm)
  | some n =>
    cases hcheck : (k.setting toml).check n with
    | error e =>
      have hread : (settings toml).read k n = .error e := hcheck
      dsimp only
      rw [hread, hcheck]
      exact funext fun clog ↦ congrArg some (Prod.ext rfl (List.append_nil clog).symm)
    | ok v =>
      have hread : (settings toml).read k n = .ok v := hcheck
      have hnotes : (settings toml).notes k n = [] := congrFun hwarn n
      dsimp only
      rw [hread, hcheck]
      dsimp only
      rw [hnotes]
      exact funext fun clog ↦ congrArg some (Prod.ext rfl (List.append_nil clog).symm)

theorem load_settings (inner : Table ν) {is : List Key} (h : ∀ k ∈ is,
      k.warnings toml = (fun _ ↦ []) ∧ said toml tbl k = inner.get (k.setting toml).name) :
    ∀ {base}, emit ((settings toml).load (said toml tbl) is base)
      = is.foldlM (fun c k ↦ (k.setting toml).load inner c) base := by
  induction is with
  | nil =>
    intro base
    exact funext fun clog ↦ congrArg some (Prod.ext rfl (List.append_nil clog))
  | cons k is ih =>
    intro base
    obtain ⟨hwarn, hsaid⟩ := h k List.mem_cons_self
    rw [List.foldlM_cons, load_setting k hwarn hsaid, ← List.singleton_append, emit_append]
    exact bind_congr fun c ↦ ih fun i hi ↦ h i (List.mem_cons_of_mem _ hi)

theorem said_of_table {k : Key} {name : Bytes} (hk : k.inSection = some name) {node : ν}
    (hnode : tbl.get name = some node) {inner : Table ν} (hinner : toml.table node = some inner) :
    said toml tbl k = inner.get (k.setting toml).name := by
  rw [said, hk]
  simp only [hnode, hinner, Option.bind_eq_bind, Option.bind_some]

theorem said_of_eq_none {k : Key} {name : Bytes} (hk : k.inSection = some name)
    (hnode : tbl.get name = none) : said toml tbl k = none := by
  rw [said, hk]
  simp only [hnode, Option.bind_eq_bind, Option.bind_none]

/-- A section: the check that it is a table, and the settings in it. -/
theorem loadSection_eq {name message under : String} {known : List Bytes} {k j : Key}
    {rest : List Key} {body : Table ν → AppConfig → Loading AppConfig}
    (hsaid : said toml tbl k = tbl.get (ascii name))
    (hsetting : ∃ v, (∀ node, (k.setting toml).check node =
        match toml.table node with
        | none => .error ⟨.invalidValue, ascii message, ascii name⟩
        | some _ => .ok v) ∧ ∀ c, (k.setting toml).store v c = c)
    (hwarn : ∀ node, k.warnings toml node = (toml.table node).elim [] (unrecognised under known))
    (hin : ∀ i ∈ j :: rest, i.inSection = some (ascii name))
    (hbody : ∀ {node inner}, tbl.get (ascii name) = some node → toml.table node = some inner →
      ∀ c, body inner c = emit ((settings toml).load (said toml tbl) (j :: rest) c)) :
    loadSection toml name message under known body tbl base
      = emit ((settings toml).load (said toml tbl) (k :: j :: rest) base) := by
  obtain ⟨v, hcheck, hstore⟩ := hsetting
  rw [loadSection]
  cases hnode : tbl.get (ascii name) with
  | none =>
    have habsent : ∀ i ∈ k :: j :: rest, said toml tbl i = none := by
      intro i hi
      rcases List.mem_cons.mp hi with rfl | hi
      · exact hsaid.trans hnode
      · exact said_of_eq_none (hin i hi) hnode
    rw [Settings.load_of_eq_none habsent]
    exact funext fun clog ↦ congrArg some (Prod.ext rfl (List.append_nil clog).symm)
  | some node =>
    dsimp only
    cases htable : toml.table node with
    | none =>
      have hread : (settings toml).read k node
          = .error ⟨.invalidValue, ascii message, ascii name⟩ := by
        rw [show (settings toml).read k node = (k.setting toml).check node from rfl, hcheck, htable]
      rw [Settings.load, hsaid.trans hnode]
      dsimp only
      rw [hread]
      exact funext fun clog ↦ congrArg some (Prod.ext rfl (List.append_nil clog).symm)
    | some inner =>
      have hread : (settings toml).read k node = .ok v := by
        rw [show (settings toml).read k node = (k.setting toml).check node from rfl, hcheck, htable]
      have hnotes : (settings toml).notes k node = unrecognised under known inner := by
        rw [show (settings toml).notes k node = k.warnings toml node from rfl, hwarn, htable,
          Option.elim_some]
      have hsame : (settings toml).store k v base = base := hstore base
      have hfirst : emit ((settings toml).load (said toml tbl) [k] base)
          = (do modify (· ++ unrecognised under known inner); return base) := by
        rw [Settings.load, hsaid.trans hnode]
        dsimp only
        rw [hread]
        dsimp only
        rw [hsame, hnotes, Settings.load]
        exact funext fun clog ↦
          congrArg some (Prod.ext rfl (congrArg (clog ++ ·) (List.append_nil _)))
      rw [emit_cons, hfirst]
      simp only [hbody hnode htable, bind_assoc, pure_bind]

theorem loadExecutor_eq : loadExecutor toml tbl base
    = emit ((settings toml).load (said toml tbl) (.executor :: executorKeys) base) := by
  refine loadSection_eq rfl ⟨(), fun _ ↦ rfl, fun _ ↦ rfl⟩ (fun _ ↦ rfl) (by decide) ?_
  intro node ex hnode htable c
  rw [load_settings ex]
  · simp only [List.foldlM_cons, List.foldlM_nil, bind_pure]
    rfl
  · intro k hk
    simp only [List.mem_cons, List.not_mem_nil, or_false] at hk
    rcases hk with rfl | rfl | rfl <;> exact ⟨rfl, said_of_table rfl hnode htable⟩

theorem loadLogging_eq : loadLogging toml tbl base
    = emit ((settings toml).load (said toml tbl) (.logging :: loggingKeys) base) := by
  refine loadSection_eq rfl ⟨(), fun _ ↦ rfl, fun _ ↦ rfl⟩ (fun _ ↦ rfl) (by decide) ?_
  intro node log hnode htable c
  rw [load_settings log]
  · simp only [List.foldlM_cons, List.foldlM_nil, bind_pure]
    rfl
  · intro k hk
    simp only [List.mem_cons, List.not_mem_nil, or_false] at hk
    rcases hk with rfl | rfl | rfl | rfl | rfl | rfl <;>
      exact ⟨rfl, said_of_table rfl hnode htable⟩

theorem load_topLevelKeys : emit ((settings toml).load (said toml tbl) topLevelKeys base)
    = topLevelKeys.foldlM (fun c k ↦ (k.setting toml).load tbl c) base := by
  refine load_settings tbl fun k hk ↦ ?_
  simp only [topLevelKeys, List.mem_cons, List.not_mem_nil, or_false] at hk
  rcases hk with rfl | rfl | rfl | rfl | rfl | rfl | rfl <;> exact ⟨rfl, rfl⟩

/-- **The code loads the settings.** -/
theorem loadTomlConfig_parsed (path : Bytes) :
    loadTomlConfig toml path (.parsed tbl) base = (do
      modify (· ++ unrecognised "" kKnownTopLevelKeys tbl)
      emit ((settings toml).load (said toml tbl) keys base)) := by
  rw [loadTomlConfig]
  refine bind_congr fun _ ↦ ?_
  rw [keys, emit_append, load_topLevelKeys]
  simp only [emit_append, ← loadExecutor_eq, ← loadLogging_eq, topLevelKeys, List.foldlM_cons,
    List.foldlM_nil, bind_assoc, pure_bind]
  rfl

end Refinement

/-! ## Checks -/

section Checks

variable {toml} {n : ν}

theorem integer_check {name key : String} {lo hi : ℤ} {reason : String}
    {store : ℤ → AppConfig → AppConfig} {raw : ℤ} :
    (Setting.integer toml name key lo hi reason store).check n = .ok raw
      ↔ toml.integer n = some raw ∧ lo ≤ raw ∧ raw ≤ hi := by
  rw [Setting.integer]
  dsimp only
  cases toml.integer n with
  | none => simp
  | some z =>
    dsimp only
    split
    · rename_i hout
      constructor
      · exact fun h ↦ absurd h (by simp)
      · rintro ⟨hz, hlo, hhi⟩
        rw [Option.some.inj hz] at hout
        omega
    · rename_i hin
      rw [Except.ok.injEq, Option.some.injEq]
      refine ⟨fun h ↦ ⟨h, ?_⟩, And.left⟩
      rw [← h]
      omega

theorem choice_check {α : Type} {name key : String} {words : List (Bytes × α)} {reason : String}
    {store : α → AppConfig → AppConfig} {a : α} :
    (Setting.choice toml name key words reason store).check n = .ok a
      ↔ (toml.string n).bind (fun s ↦ words.lookup s) = some a := by
  rw [Setting.choice]
  dsimp only
  cases toml.string n with
  | none => simp
  | some s =>
    dsimp only [Option.bind_some]
    cases words.lookup s with
    | none => simp
    | some word => simp

theorem host_check {raw : Bytes} : (Setting.host toml).check n = .ok raw
    ↔ toml.string n = some raw ∧ raw ≠ [] := by
  rw [Setting.host]
  dsimp only
  cases toml.string n with
  | none => simp
  | some s => cases s <;> simp +contextual [eq_comm]

/-- **A check accepts what the documentation allows.** -/
theorem check_eq_ok_iff {k : Key} {v : k.Val} :
    (k.setting toml).check n = .ok v ↔ k.Says toml n v := by
  cases k with
  | port | backlog | maxBodySize | requestTimeout | maxHeaderCount | maxReadBytes
  | threadCount | cpuPoolThreads | drainTimeout | queueCapacity => exact integer_check
  | level | format | destination => exact choice_check.trans (and_iff_left trivial).symm
  | host => exact host_check
  | enabled =>
    dsimp only [Key.setting, Setting.enabled, Key.Says, Key.read, Key.Allowed]
    cases toml.boolean n <;> simp
  | filePath =>
    dsimp only [Key.setting, Setting.filePath, Key.Says, Key.read, Key.Allowed]
    cases toml.string n <;> simp
  | executor | logging =>
    dsimp only [Key.setting, Key.tableSetting, Key.Says, Key.read, Key.Allowed]
    cases toml.table n <;> simp

theorem integer_check_error {name key : String} {lo hi : ℤ} {reason : String}
    {store : ℤ → AppConfig → AppConfig} {e : ConfigErrorDetail}
    (h : (Setting.integer toml name key lo hi reason store).check n = .error e) :
    e.code = .invalidValue ∧ e.key = ascii key := by
  rw [Setting.integer] at h
  dsimp only at h
  split at h
  · rw [← Except.error.inj h]
    exact ⟨rfl, rfl⟩
  · split at h
    · rw [← Except.error.inj h]
      exact ⟨rfl, rfl⟩
    · exact absurd h (by simp)

theorem choice_check_error {α : Type} {name key : String} {words : List (Bytes × α)}
    {reason : String} {store : α → AppConfig → AppConfig} {e : ConfigErrorDetail}
    (h : (Setting.choice toml name key words reason store).check n = .error e) :
    e.code = .invalidValue ∧ e.key = ascii key := by
  rw [Setting.choice] at h
  dsimp only at h
  split at h
  · rw [← Except.error.inj h]
    exact ⟨rfl, rfl⟩
  · split at h
    · rw [← Except.error.inj h]
      exact ⟨rfl, rfl⟩
    · exact absurd h (by simp)

/-- **An error names the setting it is about.** -/
theorem check_error {k : Key} {e : ConfigErrorDetail} (h : (k.setting toml).check n = .error e) :
    e.code = .invalidValue ∧ e.key = k.path := by
  cases k with
  | port | backlog | maxBodySize | requestTimeout | maxHeaderCount | maxReadBytes
  | threadCount | cpuPoolThreads | drainTimeout | queueCapacity => exact integer_check_error h
  | level | format | destination => exact choice_check_error h
  | host =>
    dsimp only [Key.setting, Setting.host] at h
    split at h
    · rw [← Except.error.inj h]
      exact ⟨rfl, rfl⟩
    · split at h
      · rw [← Except.error.inj h]
        exact ⟨rfl, rfl⟩
      · exact absurd h (by simp)
  | enabled | filePath | executor | logging =>
    dsimp only [Key.setting, Setting.enabled, Setting.filePath, Key.tableSetting] at h
    split at h
    · rw [← Except.error.inj h]
      exact ⟨rfl, rfl⟩
    · exact absurd h (by simp)

end Checks

/-! ## What a setting stores -/

theorem toNat_toSize {v : ℤ} (h0 : 0 ≤ v) (hv : v < 2 ^ 64) : (toSize v : ℤ) = v := by
  rw [toSize, Int.emod_eq_of_lt h0 hv, Int.toNat_of_nonneg h0]

theorem toNat_toUInt16 {v : ℤ} (h0 : 0 ≤ v) (hv : v < 2 ^ 16) :
    ((UInt16.ofInt v).toNat : ℤ) = v := by
  rw [UInt16.ofInt, UInt16.toNat_ofNat', Int.emod_eq_of_lt h0 hv]
  omega

theorem toNat_toUInt32 {v : ℤ} (h0 : 0 ≤ v) (hv : v < 2 ^ 32) :
    ((UInt32.ofInt v).toNat : ℤ) = v := by
  rw [UInt32.ofInt, UInt32.toNat_ofNat', Int.emod_eq_of_lt h0 hv]
  omega

/-- An allowed value survives the conversion to the type it is stored in. -/
theorem get_store {k : Key} {v : k.Val} (h : k.Allowed v) (c : AppConfig) :
    k.get ((k.setting toml).store v c) = some v := by
  have hlow {lo v : ℤ} (hv : lo ≤ v) (hlo : 0 ≤ lo) : 0 ≤ v := hlo.trans hv
  have hhigh {hi v b : ℤ} (hv : v ≤ hi) (hb : hi < b) : v < b := hv.trans_lt hb
  cases k with
  | port => exact congrArg some (toNat_toUInt16 (hlow h.1 (by decide)) (hhigh h.2 (by decide)))
  | backlog =>
    exact congrArg some
      (Int32.toInt_ofInt_of_le ((by decide : -2 ^ 31 ≤ (0 : ℤ)).trans (hlow h.1 (by decide)))
        (hhigh h.2 (by decide)))
  | maxBodySize | maxHeaderCount | maxReadBytes | threadCount | cpuPoolThreads =>
    exact congrArg some (toNat_toSize (hlow h.1 (by decide)) (hhigh h.2 (by decide)))
  | queueCapacity =>
    exact congrArg some (toNat_toUInt32 (hlow h.1 (by decide)) (hhigh h.2 (by decide)))
  | requestTimeout | drainTimeout => rfl
  | host | executor | logging | enabled | level | format | destination | filePath => rfl

/-- **Storing a setting changes this one alone.** -/
theorem settings_lawful : (settings toml).Lawful Key.get where
  get_store s h := get_store toml (check_eq_ok_iff.mp h).2 s
  get_store_of_ne := by
    intro i j v s hne
    cases i <;> cases j <;> first | rfl | exact absurd rfl hne

theorem store_reusePort (k : Key) (v : k.Val) (c : AppConfig) :
    ((settings toml).store k v c).reusePort = c.reusePort := by
  cases k <;> rfl

/-- The keys are all there is to a configuration, but for `reuse_port`. -/
theorem AppConfig.ext_get {c d : AppConfig} (hget : ∀ k : Key, k.get c = k.get d)
    (hreuse : c.reusePort = d.reusePort) : c = d := by
  have hsize {m n : ℕ} (h : some (m : ℤ) = some (n : ℤ)) : m = n :=
    Int.ofNat.inj (Option.some.inj h)
  have hport : c.port = d.port := UInt16.toNat_inj.mp (hsize (hget .port))
  have hhost : c.host = d.host := Option.some.inj (hget .host)
  have hbacklog : c.backlog = d.backlog := Int32.toInt_inj.mp (Option.some.inj (hget .backlog))
  have hbody : c.maxBodySize = d.maxBodySize := hsize (hget .maxBodySize)
  have hheader : c.maxHeaderCount = d.maxHeaderCount := hsize (hget .maxHeaderCount)
  have hrequest : c.requestTimeout = d.requestTimeout := Option.some.inj (hget .requestTimeout)
  have hread : c.maxReadBytes = d.maxReadBytes := hsize (hget .maxReadBytes)
  have hthread : c.executor.threadCount = d.executor.threadCount := hsize (hget .threadCount)
  have hpool : c.executor.cpuPoolThreads = d.executor.cpuPoolThreads :=
    hsize (hget .cpuPoolThreads)
  have hdrain : c.executor.drainTimeout = d.executor.drainTimeout :=
    Option.some.inj (hget .drainTimeout)
  have henabled : c.logging.enabled = d.logging.enabled := Option.some.inj (hget .enabled)
  have hlevel : c.logging.level = d.logging.level := Option.some.inj (hget .level)
  have hformat : c.logging.format = d.logging.format := Option.some.inj (hget .format)
  have hdestination : c.logging.destination = d.logging.destination :=
    Option.some.inj (hget .destination)
  have hfile : c.logging.filePath = d.logging.filePath := hget .filePath
  have hcapacity : c.logging.queueCapacity = d.logging.queueCapacity :=
    UInt32.toNat_inj.mp (hsize (hget .queueCapacity))
  rcases c with ⟨⟨_, _⟩, _, _, _, _, ⟨_, _, _⟩, _, _, ⟨⟨_, _, _, _, _⟩, _⟩⟩
  rcases d with ⟨⟨_, _⟩, _, _, _, _, ⟨_, _, _⟩, _, _, ⟨⟨_, _, _, _, _⟩, _⟩⟩
  simp only at *
  subst_vars
  rfl

end Aevox.Config
