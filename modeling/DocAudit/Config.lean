import DocAudit.Failure
import DocAudit.Settings
import DocAudit.Toml.Reader

/-!
# Configuration

A workspace is configured by a TOML file: which files are scanned, in what batches, and the settings
of the analysis. A key that is no setting, or a value of the wrong type, is refused.

* `Config.parse`: the configuration in a text.
* `Config.accepts`: which files are scanned.
-/

namespace DocAudit

/-- The configuration of a workspace. -/
structure Config where
  /-- How many files are read at a time. -/
  batchSize : Nat := 32
  /-- Starts of the paths that are scanned; empty for all paths. -/
  included : List Text := []
  /-- Starts of the paths that are not scanned. -/
  excluded : List Text := []
  settings : Settings := {}
deriving DecidableEq, Repr

namespace Config

/-- Whether the file at a path is scanned. Starts are compared as texts, not by components. -/
def accepts (c : Config) (path : Text) : Bool :=
  (c.included.isEmpty || c.included.any (·.isPrefixOf path)) && !c.excluded.any (·.isPrefixOf path)

/-! ## Values -/

/-- A boolean. -/
def asBoolean? : Toml.Node → Option Bool
  | .boolean b => some b
  | _ => none

/-- A natural number. -/
def asNatural? : Toml.Node → Option Nat
  | .integer n => if 0 ≤ n then some n.toNat else none
  | _ => none

/-- A text. -/
def asText? : Toml.Node → Option Text
  | .text t => some t
  | _ => none

/-- A list of values. -/
def asList? {α : Type} (item? : Toml.Node → Option α) : Toml.Node → Option (List α)
  | .array items => items.mapM item?
  | .tables all => (all.map (Toml.Node.table .header)).mapM item?
  | _ => none

/-- Whether a value holds nothing. -/
def isEmptyNode : Toml.Node → Bool
  | .array items => items.isEmpty
  | .table _ entries => entries.isEmpty
  | _ => false

/-- One of some words: written as a text, or as the only key of a table with nothing under it. -/
def asWord? {α : Type} (words : List (Text × α)) : Toml.Node → Option α
  | .text t => words.lookup t
  | .table _ [(key, node)] => if isEmptyNode node then words.lookup key else none
  | _ => none

/-- The names of access levels. -/
def accessNames : List (Text × Access) :=
  [("Internal", .withinApp), ("Local", .withinObject), ("Protected", .withinFamily),
    ("Public", .everywhere)]

/-- The names of kinds of procedure. -/
def typeNames : List (Text × ProcedureType) :=
  [("EventPublisher", .ofCategory .eventPublisher),
    ("EventSubscriber", .ofCategory .eventSubscriber), ("Normal", .ofCategory .normal),
    ("Test", .ofCategory .test), ("TryFunction", .tryFunction)]

/-! ## Documents -/

/-- The configuration with one setting changed. -/
def Setter := Toml.Node → Config → Option Config

/-- A setting of the analysis. -/
def ofSettings {α : Type} (read? : Toml.Node → Option α) (change : α → Settings → Settings) : Setter :=
  fun node c => (read? node).map fun a => { c with settings := change a c.settings }

/-- Every setting by its key. -/
def setters : List (Text × Setter) :=
  [("access_levels", ofSettings (asList? (asWord? accessNames)) fun a s => { s with accessLevels := a }),
    ("batch_size", fun node c => (asNatural? node).map fun n => { c with batchSize := n }),
    ("check_object_documentation", ofSettings asBoolean? fun b s => { s with checkObjects := b }),
    ("check_obsolete", ofSettings asBoolean? fun b s => { s with checkObsolete := b }),
    ("check_procedure_documentation",
      ofSettings asBoolean? fun b s => { s with checkProcedures := b }),
    ("check_triggers", ofSettings asBoolean? fun b s => { s with checkTriggers := b }),
    ("exclude", fun node c => (asList? asText? node).map fun l => { c with excluded := l }),
    ("include", fun node c => (asList? asText? node).map fun l => { c with included := l }),
    ("procedure_types",
      ofSettings (asList? (asWord? typeNames)) fun l s => { s with procedureTypes := l }),
    ("severity", ofSettings (asWord? Severity.words) fun v s => { s with severity := v })]

/-- The configuration with one entry of a document taken into account. -/
def add (c : Config) (entry : Text × Toml.Node) : Except SettingsFault Config :=
  match setters.lookup entry.1 with
  | none => .error (.unknownKey entry.1)
  | some set =>
    match set entry.2 c with
    | some c => .ok c
    | none => .error (.badValue entry.1)

/-- The configuration that the entries of a document make. -/
def ofEntries : Config → Toml.Entries → Except SettingsFault Config
  | c, [] => .ok c
  | c, entry :: rest => do ofEntries (← c.add entry) rest

/-- The configuration in a text. Batches must not be empty. -/
def parse (t : Text) : Except Failure Config :=
  match Toml.readDocument? t with
  | none => .error (.settings .malformed)
  | some entries =>
    match ofEntries {} entries with
    | .error fault => .error (.settings fault)
    | .ok c =>
      if c.batchSize = 0 then .error (.invalidConfig "batch_size must be at least 1") else .ok c

end Config

end DocAudit
