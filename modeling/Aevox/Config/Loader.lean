import Aevox.App.Connection
import Aevox.Log.Format

/-!
# The configuration file

`App::create` takes a configuration and a TOML file that may override it. The loader reads the
settings of the file in a fixed order, checks each against its range and stores it. The first check
that fails ends the loading with an error that names the setting. Keys that no setting has are
warned about and otherwise ignored. The loader is `noexcept`, and an exception that none of its
handlers catches ends the process.

The TOML library is a parameter: a node is something that may be read as an integer, as a boolean,
as a string or as a table (`Toml`), and a table lists its keys with their nodes in the order in
which it is iterated.
-/

namespace Aevox.Config

/-! ## Configurations and errors -/

inductive ConfigError where
  | fileNotFound
  | parseError
  | invalidValue
  deriving DecidableEq

structure ConfigErrorDetail where
  code : ConfigError
  message : Bytes
  key : Bytes := []
  deriving DecidableEq

/-- `ExecutorConfig`; the timeout is in seconds. -/
structure ExecutorConfig where
  threadCount : ℕ := 0
  cpuPoolThreads : ℕ := 4
  drainTimeout : ℤ := 30

/-- `LogConfig` with the format, which the writer passes on to the formatter. -/
structure LogConfig extends Aevox.LogConfig where
  format : LogFormat := .json

/-- `AppConfig` with what connections do not read; the timeout is in seconds. -/
structure AppConfig extends Aevox.AppConfig where
  port : UInt16 := 8080
  host : Bytes := ascii "0.0.0.0"
  backlog : Int32 := 1024
  reusePort : Bool := true
  executor : ExecutorConfig := {}
  requestTimeout : ℤ := 30
  maxReadBytes : ℕ := 65536
  logging : LogConfig := {}

/-! ## TOML -/

abbrev Table (ν : Type) := List (Bytes × ν)

/-- `tbl.get(key)` -/
def Table.get {ν : Type} (tbl : Table ν) (key : Bytes) : Option ν :=
  (tbl.find? fun entry ↦ entry.1 == key).map Prod.snd

/-- How a node is read: `value<int64_t>`, `value<bool>`, `value<std::string>` and `as_table`. -/
structure Toml (ν : Type) where
  integer : ν → Option ℤ
  boolean : ν → Option Bool
  string : ν → Option Bytes
  table : ν → Option (Table ν)

/-- What `std::filesystem::exists` and `toml::parse_file` find at a path. -/
inductive File (ν : Type) where
  | missing
  /-- `exists` throws: whether there is a file cannot be found out. -/
  | inaccessible
  /-- The parser throws a `parse_error`. -/
  | malformed (description : Bytes)
  /-- It throws something else. -/
  | unreadable
  | parsed (tbl : Table ν)

/-! ## Settings -/

abbrev kMinPositiveValue : ℤ := 1
abbrev kMaxPortValue : ℤ := 65535
abbrev kMaxBodyBytes : ℤ := 2 * 1024 * 1024 * 1024
abbrev kMaxRequestTimeoutSeconds : ℤ := 3600
abbrev kMaxHeaderCount : ℤ := 1000
abbrev kMinReadBytes : ℤ := 512
abbrev kMaxReadBytes : ℤ := 16 * 1024 * 1024
abbrev kMaxExecutorThreadCount : ℤ := 1024
abbrev kMaxExecutorCpuPoolThreads : ℤ := 256
abbrev kMaxDrainTimeoutSeconds : ℤ := 3600
abbrev kMinLogQueueCapacity : ℤ := 1
abbrev kMaxLogQueueCapacity : ℤ := 1024 * 1024

def kKnownTopLevelKeys : List Bytes :=
  ["port", "host", "backlog", "max_body_size", "request_timeout", "max_header_count",
    "max_read_bytes", "executor", "logging"].map ascii

def kKnownExecutorKeys : List Bytes :=
  ["thread_count", "cpu_pool_threads", "drain_timeout"].map ascii

def kKnownLoggingKeys : List Bytes :=
  ["enabled", "level", "format", "destination", "file_path", "queue_capacity"].map ascii

def isKnownKey (key : Bytes) (known : List Bytes) : Bool := known.any fun k ↦ k == key

def makeInvalid (key reason : Bytes) : ConfigErrorDetail where
  code := .invalidValue
  message := ascii "invalid value for '" ++ key ++ ascii "': " ++ reason
  key := key

/-- `static_cast<std::size_t>` -/
def toSize (raw : ℤ) : ℕ := (raw % 2 ^ 64).toNat

/-- A setting: the key it has in its table, how its node is checked, and where it is stored. -/
structure Setting (ν α : Type) where
  name : Bytes
  check : ν → Except ConfigErrorDetail α
  store : α → AppConfig → AppConfig

namespace Setting

variable {ν α : Type} (toml : Toml ν)

/-- An integer within bounds. -/
def integer (name key : String) (lo hi : ℤ) (reason : String) (store : ℤ → AppConfig → AppConfig) :
    Setting ν ℤ where
  name := ascii name
  check v :=
    match toml.integer v with
    | none => .error (makeInvalid (ascii key) (ascii reason))
    | some raw =>
      if raw < lo ∨ raw > hi then .error (makeInvalid (ascii key) (ascii reason))
      else .ok raw
  store := store

/-- One of the words of a list. -/
def choice (name key : String) (words : List (Bytes × α)) (reason : String)
    (store : α → AppConfig → AppConfig) : Setting ν α where
  name := ascii name
  check v :=
    match toml.string v with
    | none => .error (makeInvalid (ascii key) (ascii "must be a string"))
    | some s =>
      match words.lookup s with
      | none => .error (makeInvalid (ascii key) (ascii reason))
      | some raw => .ok raw
  store := store

def port : Setting ν ℤ :=
  integer toml "port" "port" kMinPositiveValue kMaxPortValue "must be an integer in 1..65535"
    fun raw base ↦ { base with port := UInt16.ofInt raw }

def host : Setting ν Bytes where
  name := ascii "host"
  check v :=
    match toml.string v with
    | none => .error (makeInvalid (ascii "host") (ascii "must be a non-empty string"))
    | some raw =>
      if raw.isEmpty then
        .error (makeInvalid (ascii "host") (ascii "must be a non-empty string"))
      else .ok raw
  store raw base := { base with host := raw }

def backlog : Setting ν ℤ :=
  integer toml "backlog" "backlog" kMinPositiveValue kMaxPortValue "must be an integer in 1..65535"
    fun raw base ↦ { base with backlog := Int32.ofInt raw }

def maxBodySize : Setting ν ℤ :=
  integer toml "max_body_size" "max_body_size" kMinPositiveValue kMaxBodyBytes
    "must be an integer in 1..2147483648" fun raw base ↦ { base with maxBodySize := toSize raw }

def requestTimeout : Setting ν ℤ :=
  integer toml "request_timeout" "request_timeout" kMinPositiveValue kMaxRequestTimeoutSeconds
    "must be an integer in 1..3600 (seconds)" fun raw base ↦ { base with requestTimeout := raw }

def maxHeaderCount : Setting ν ℤ :=
  integer toml "max_header_count" "max_header_count" kMinPositiveValue kMaxHeaderCount
    "must be an integer in 1..1000" fun raw base ↦ { base with maxHeaderCount := toSize raw }

def maxReadBytes : Setting ν ℤ :=
  integer toml "max_read_bytes" "max_read_bytes" kMinReadBytes kMaxReadBytes
    "must be an integer in 512..16777216" fun raw base ↦ { base with maxReadBytes := toSize raw }

def threadCount : Setting ν ℤ :=
  integer toml "thread_count" "executor.thread_count" 0 kMaxExecutorThreadCount
    "must be an integer in 0..1024"
    fun raw base ↦ { base with executor := { base.executor with threadCount := toSize raw } }

def cpuPoolThreads : Setting ν ℤ :=
  integer toml "cpu_pool_threads" "executor.cpu_pool_threads" 0 kMaxExecutorCpuPoolThreads
    "must be an integer in 0..256"
    fun raw base ↦ { base with executor := { base.executor with cpuPoolThreads := toSize raw } }

def drainTimeout : Setting ν ℤ :=
  integer toml "drain_timeout" "executor.drain_timeout" kMinPositiveValue kMaxDrainTimeoutSeconds
    "must be an integer in 1..3600 (seconds)"
    fun raw base ↦ { base with executor := { base.executor with drainTimeout := raw } }

def enabled : Setting ν Bool where
  name := ascii "enabled"
  check v :=
    match toml.boolean v with
    | none => .error (makeInvalid (ascii "logging.enabled") (ascii "must be a boolean"))
    | some raw => .ok raw
  store raw base := { base with logging := { base.logging with enabled := raw } }

def levels : List (Bytes × LogLevel) :=
  [(ascii "trace", .trace), (ascii "debug", .debug), (ascii "info", .info), (ascii "warn", .warn),
    (ascii "error", .error), (ascii "fatal", .fatal)]

def level : Setting ν LogLevel :=
  choice toml "level" "logging.level" levels
    "must be one of: trace, debug, info, warn, error, fatal"
    fun raw base ↦ { base with logging := { base.logging with level := raw } }

def formats : List (Bytes × LogFormat) := [(ascii "json", .json), (ascii "pretty", .pretty)]

def format : Setting ν LogFormat :=
  choice toml "format" "logging.format" formats "must be one of: json, pretty"
    fun raw base ↦ { base with logging := { base.logging with format := raw } }

def destinations : List (Bytes × LogDestination) :=
  [(ascii "stdout", .stdout), (ascii "stderr", .stderr), (ascii "file", .file),
    (ascii "disabled", .disabled)]

def destination : Setting ν LogDestination :=
  choice toml "destination" "logging.destination" destinations
    "must be one of: stdout, stderr, file, disabled"
    fun raw base ↦ { base with logging := { base.logging with destination := raw } }

def filePath : Setting ν Bytes where
  name := ascii "file_path"
  check v :=
    match toml.string v with
    | none => .error (makeInvalid (ascii "logging.file_path") (ascii "must be a string"))
    | some raw => .ok raw
  store raw base := { base with logging := { base.logging with filePath := some raw } }

def queueCapacity : Setting ν ℤ :=
  integer toml "queue_capacity" "logging.queue_capacity" kMinLogQueueCapacity kMaxLogQueueCapacity
    "must be an integer in 1..1048576"
    fun raw base ↦ { base with logging := { base.logging with queueCapacity := UInt32.ofInt raw } }

end Setting

/-! ## Loading -/

/-- A computation that writes lines to `std::clog`, and may return an error or end the process. -/
abbrev Loading := ExceptT ConfigErrorDetail (StateT (List Bytes) Option)

/-- What the computation returns, and `std::clog` when it has; `none` if it ends the process. -/
def Loading.outcome {α : Type} (x : Loading α) (clog : List Bytes) :
    Option (Except ConfigErrorDetail α × List Bytes) := x.run.run clog

/-- `std::terminate`, which an exception calls that leaves a `noexcept` function -/
def Loading.terminate {α : Type} : Loading α := ExceptT.mk fun _ ↦ none

/-- The warnings about the unknown keys of a table, where its own name stands before them. -/
def unrecognised {ν : Type} (under : String) (known : List Bytes) (tbl : Table ν) : List Bytes :=
  (tbl.filter fun entry ↦ !isKnownKey entry.1 known).map fun entry ↦
    ascii "[aevox] config warning: unrecognised key '" ++ ascii under ++ entry.1 ++
      -- the dash is not ASCII
      ascii "' " ++ [0xE2, 0x80, 0x94] ++ ascii " ignored\n"

variable {ν α : Type} (toml : Toml ν)

def Setting.load (setting : Setting ν α) (tbl : Table ν) (base : AppConfig) : Loading AppConfig :=
  match tbl.get setting.name with
  | none => return base
  | some v => return setting.store (← setting.check v) base

/-- A section, whose settings are loaded from its own table. -/
def loadSection (name message under : String) (known : List Bytes)
    (settings : Table ν → AppConfig → Loading AppConfig) (tbl : Table ν) (base : AppConfig) :
    Loading AppConfig :=
  match tbl.get (ascii name) with
  | none => return base
  | some node =>
    match toml.table node with
    | none => throw ⟨.invalidValue, ascii message, ascii name⟩
    | some inner => do
      modify (· ++ unrecognised under known inner)
      settings inner base

def loadExecutor : Table ν → AppConfig → Loading AppConfig :=
  loadSection toml "executor" "'executor' must be a TOML table section" "executor."
    kKnownExecutorKeys fun ex base ↦ do
      let base ← (Setting.threadCount toml).load ex base
      let base ← (Setting.cpuPoolThreads toml).load ex base
      (Setting.drainTimeout toml).load ex base

def loadLogging : Table ν → AppConfig → Loading AppConfig :=
  loadSection toml "logging" "'logging' must be a TOML table section" "logging."
    kKnownLoggingKeys fun log base ↦ do
      let base ← (Setting.enabled toml).load log base
      let base ← (Setting.level toml).load log base
      let base ← (Setting.format toml).load log base
      let base ← (Setting.destination toml).load log base
      let base ← (Setting.filePath toml).load log base
      (Setting.queueCapacity toml).load log base

/-- `load_toml_config` -/
def loadTomlConfig (path : Bytes) (file : File ν) (base : AppConfig) : Loading AppConfig :=
  match file with
  | .missing => throw ⟨.fileNotFound, ascii "config file not found: '" ++ path ++ ascii "'", []⟩
  -- the test for existence is outside the handlers
  | .inaccessible => .terminate
  | .malformed description =>
    throw ⟨.parseError, ascii "TOML parse error in '" ++ path ++ ascii "': " ++ description, []⟩
  | .unreadable =>
    throw ⟨.parseError, ascii "could not read config file '" ++ path ++ ascii "'", []⟩
  | .parsed tbl => do
    modify (· ++ unrecognised "" kKnownTopLevelKeys tbl)
    let base ← (Setting.port toml).load tbl base
    let base ← (Setting.host toml).load tbl base
    let base ← (Setting.backlog toml).load tbl base
    let base ← (Setting.maxBodySize toml).load tbl base
    let base ← (Setting.requestTimeout toml).load tbl base
    let base ← (Setting.maxHeaderCount toml).load tbl base
    let base ← (Setting.maxReadBytes toml).load tbl base
    let base ← loadExecutor toml tbl base
    loadLogging toml tbl base

/-- `App::create`, up to the construction of the `App` -/
def create (files : Bytes → File ν) (base : AppConfig) (path : Option Bytes) : Loading AppConfig :=
  match path with
  | none => return base
  | some path => if path.isEmpty then return base else loadTomlConfig toml path (files path) base

end Aevox.Config
