import DocAudit.Text.Basic

/-!
# Vocabulary

The fixed words of the analysed language, each as a type of its own: who may see a declaration,
which kind of object it is, how far its retirement has gone, and how a procedure is called.
Words are read without regard to ASCII case.

* `Access`, `ObjectKind`, `RelationKind`: words of headers and properties.
* `ProcedureKind`, `Category`: what a procedure is.
* `Stage`: the life of an obsolete declaration.
-/

namespace DocAudit

/-- Who may see a declaration. -/
inductive Access
  /-- `internal`: the declaring app. -/
  | withinApp
  /-- `local`: the declaring object. -/
  | withinObject
  /-- `protected`: the object and its extensions. -/
  | withinFamily
  /-- `public`, or no modifier. -/
  | everywhere
deriving DecidableEq, Repr

/-- Every access level. -/
def Access.all : List Access := [.withinApp, .withinObject, .withinFamily, .everywhere]

theorem Access.mem_all (a : Access) : a ∈ Access.all := by cases a <;> decide

/-- The word of each access level. -/
def Access.words : List (Text × Access) :=
  [("internal", .withinApp), ("local", .withinObject), ("protected", .withinFamily),
    ("public", .everywhere)]

/-- The access level a word names. -/
def Access.ofWord? (word : Text) : Option Access := Access.words.lookup (lower word)

/-- The kind keyword of an object header. Keywords that the language may gain later are still
read, as `unknown`. -/
inductive ObjectKind
  | codeunit
  | controlAddIn
  | enum
  | enumExtension
  | interface
  | page
  | pageExtension
  | query
  | record
  | report
  | table
  | tableExtension
  | unknown
  | xmlPort
deriving DecidableEq, Repr

/-- The keyword of each known kind. -/
def ObjectKind.words : List (Text × ObjectKind) :=
  [("codeunit", .codeunit), ("controladdin", .controlAddIn), ("enum", .enum),
    ("enumextension", .enumExtension), ("interface", .interface), ("page", .page),
    ("pageextension", .pageExtension), ("query", .query), ("record", .record),
    ("report", .report), ("table", .table), ("tableextension", .tableExtension),
    ("xmlport", .xmlPort)]

/-- The kind a keyword stands for. -/
def ObjectKind.ofWord (word : Text) : ObjectKind :=
  (ObjectKind.words.lookup (lower word)).getD .unknown

/-- How an object relates to the targets named in its header. -/
inductive RelationKind
  /-- `extends`: the object adds to its target. -/
  | extending
  /-- `implements`: the object fulfils its targets, which are interfaces. -/
  | implementing
deriving DecidableEq, Repr

/-- The keyword that introduces a procedure. -/
inductive ProcedureKind
  | procedure
  | trigger
deriving DecidableEq, Repr

/-- The keyword in lower case. -/
def ProcedureKind.word : ProcedureKind → Text
  | .procedure => "procedure"
  | .trigger => "trigger"

/-- What a procedure is for, by the attributes above it. -/
inductive Category
  | eventPublisher
  | eventSubscriber
  | normal
  | test
deriving DecidableEq, Repr

/-- How far the retirement of a declaration has gone. -/
inductive Stage
  /-- Still compiled, to be removed later. -/
  | pending
  /-- Kept only as a memorial. -/
  | removed
deriving DecidableEq, Repr

/-- The mark of an obsolete declaration. -/
structure Obsolescence where
  reason : Text
  stage : Stage
deriving DecidableEq, Repr

/-- How grave a finding is. -/
inductive Severity
  | error
  | hint
  | information
  | warning
deriving DecidableEq, Repr

/-- The word of each severity, in settings and reports. -/
def Severity.words : List (Text × Severity) :=
  [("error", .error), ("hint", .hint), ("information", .information), ("warning", .warning)]

/-- The word of a severity. -/
def Severity.word : Severity → Text
  | .error => "error"
  | .hint => "hint"
  | .information => "information"
  | .warning => "warning"

end DocAudit
