import DocAudit.Finding.Basic

/-!
# JSON reports

Findings and models as JSON, printed over several lines: members in alphabetical order, two spaces
for each level, nothing between the brackets of an empty list.

* `Json`, `Json.pretty`: values and their text.
* `Finding.json`, `SourceObject.json`: what is reported.
-/

namespace DocAudit

/-- A JSON value; the numbers of a report are natural. -/
inductive Json
  | null
  | bool (b : Bool)
  | number (n : Nat)
  | string (t : Text)
  | array (items : List Json)
  | object (members : List (Text × Json))
deriving Repr

namespace Json

/-! ## Printing -/

/-- A hexadecimal digit. -/
def hexDigit (n : Nat) : Char := Char.ofNat (if n < 10 then '0'.toNat + n else 'a'.toNat + n - 10)

/-- A character inside a string. -/
def escapeChar (c : Char) : Text :=
  if c = '"' then "\\\""
  else if c = '\\' then "\\\\"
  else if c = '\n' then "\\n"
  else if c = '\r' then "\\r"
  else if c = '\t' then "\\t"
  else if c.toNat = 8 then "\\b"
  else if c.toNat = 12 then "\\f"
  else if c.toNat < 32 then "\\u00" ++ [hexDigit (c.toNat / 16), hexDigit (c.toNat % 16)]
  else [c]

/-- A string between double quotes. -/
def quote (t : Text) : Text := '"' :: t.flatMap escapeChar ++ ['"']

/-- A new line at some level. -/
def newLine (level : Nat) : Text := '\n' :: List.replicate (2 * level) ' '

mutual

/-- The text of a value whose first line stands at some level. -/
def pretty (level : Nat) : Json → Text
  | null => "null"
  | bool true => "true"
  | bool false => "false"
  | number n => decimal n
  | string t => quote t
  | array [] => "[]"
  | array (item :: items) =>
    '[' :: newLine (level + 1) ++ pretty (level + 1) item ++ prettyItems (level + 1) items ++
      newLine level ++ [']']
  | object [] => ['{', '}']
  | object ((name, value) :: members) =>
    '{' :: newLine (level + 1) ++ quote name ++ ": " ++ pretty (level + 1) value ++
      prettyMembers (level + 1) members ++ newLine level ++ ['}']

/-- The items after the first. -/
def prettyItems (level : Nat) : List Json → Text
  | [] => []
  | item :: items => ',' :: newLine level ++ pretty level item ++ prettyItems level items

/-- The members after the first. -/
def prettyMembers (level : Nat) : List (Text × Json) → Text
  | [] => []
  | (name, value) :: members =>
    ',' :: newLine level ++ quote name ++ ": " ++ pretty level value ++ prettyMembers level members

end

/-- The value of something that may be missing. -/
def ofOption {α : Type} (f : α → Json) : Option α → Json
  | none => null
  | some a => f a

/-- A word of the report. -/
def word (s : String) : Json := string s

/-- Members named by literals. -/
def record (members : List (String × Json)) : Json :=
  object (members.map fun (name, value) => (name.toList, value))

end Json

/-! ## Words -/

/-- The word of an access level in a report. -/
def Access.json : Access → Json
  | .withinApp => .word "Internal"
  | .withinObject => .word "Local"
  | .withinFamily => .word "Protected"
  | .everywhere => .word "Public"

/-- The word of a kind in a report. -/
def ObjectKind.json : ObjectKind → Json
  | .codeunit => .word "Codeunit"
  | .controlAddIn => .word "ControlAddIn"
  | .enum => .word "Enum"
  | .enumExtension => .word "EnumExtension"
  | .interface => .word "Interface"
  | .page => .word "Page"
  | .pageExtension => .word "PageExtension"
  | .query => .word "Query"
  | .record => .word "Record"
  | .report => .word "Report"
  | .table => .word "Table"
  | .tableExtension => .word "TableExtension"
  | .unknown => .word "Unknown"
  | .xmlPort => .word "XmlPort"

/-- The word of a relation in a report. -/
def RelationKind.json : RelationKind → Json
  | .extending => .word "Extends"
  | .implementing => .word "Implements"

/-- The word of a procedure's keyword in a report. -/
def ProcedureKind.json : ProcedureKind → Json
  | .procedure => .word "Procedure"
  | .trigger => .word "Trigger"

/-- The word of a category in a report. -/
def Category.json : Category → Json
  | .eventPublisher => .word "EventPublisher"
  | .eventSubscriber => .word "EventSubscriber"
  | .normal => .word "Normal"
  | .test => .word "Test"

/-- The word of a stage in a report. -/
def Stage.json : Stage → Json
  | .pending => .word "Pending"
  | .removed => .word "Removed"

/-- The word of a target in a report. -/
def Target.json : Target → Json
  | .object => .word "Object"
  | .procedure => .word "Procedure"

/-- The word of a severity in a report. -/
def Severity.json (s : Severity) : Json := .string s.word

/-! ## Records -/

/-- Whether there is documentation, and its text. -/
def Documentation.json (d : Documentation) : Json :=
  .record [("exists", .bool d.isSome), ("raw", .string d.raw)]

/-- A relation clause. -/
def Relation.json (r : Relation) : Json :=
  .record [("kind", r.kind.json), ("target", .string r.target)]

/-- The mark of an obsolete declaration. -/
def Obsolescence.json (o : Obsolescence) : Json :=
  .record [("reason", .string o.reason), ("state", o.stage.json)]

/-- A place in a file. -/
def Position.json (p : Position) : Json :=
  .record [("column", .number p.column), ("line", .number p.line)]

/-- A part of a file. -/
def Range.json (r : Range) : Json := .record [("end", r.stop.json), ("start", r.start.json)]

/-- A parameter. -/
def Parameter.json (p : Parameter) : Json :=
  .record [
    ("by_reference", .bool p.byReference),
    ("data_type", .string p.dataType),
    ("documentation", Documentation.json p.documentation),
    ("name", .string p.name),
    ("subtype", .ofOption .string p.subtype),
    ("temporary", .bool p.temporary)]

/-- What a procedure returns. -/
def Return.json (r : Return) : Json :=
  .record [
    ("data_type", .string r.dataType),
    ("documentation", Documentation.json r.documentation),
    ("name", .ofOption .string r.name)]

/-- A procedure. -/
def Procedure.json (p : Procedure) : Json :=
  .record [
    ("access", p.access.json),
    ("declaration", .string p.declaration),
    ("documentation", Documentation.json p.documentation),
    ("is_try", .bool p.isTry),
    ("kind", p.kind.json),
    ("line", .number p.line),
    ("name", .string p.name),
    ("obsolete", .ofOption Obsolescence.json p.obsolete),
    ("parameters", .array (p.parameters.map Parameter.json)),
    ("range", p.range.json),
    ("return_value", .ofOption Return.json p.returns),
    ("subtype", p.category.json)]

/-- An object with everything it owns. -/
def SourceObject.json (o : SourceObject) : Json :=
  .record [
    ("access", o.access.json),
    ("documentation", Documentation.json o.documentation),
    ("extension", .ofOption Relation.json o.relation),
    ("file", .string o.file.text),
    ("id", .ofOption .number o.number),
    ("kind", o.kind.json),
    ("kind_token", .string o.keyword),
    ("line", .number o.line),
    ("name", .string o.name),
    ("obsolete", .ofOption Obsolescence.json o.obsolete),
    ("procedures", .array (o.procedures.map Procedure.json))]

/-- A shortcoming, with the name it is about. -/
def Shortcoming.json : Shortcoming → Json
  | .undocumented => .word "DocumentationMissing"
  | .noSummary => .word "SummaryMissing"
  | .noParameter name => .record [("ParameterMissing", .string name)]
  | .extraParameter name => .record [("ParameterUnnecessary", .string name)]
  | .noReturn => .word "ReturnTypeMissing"
  | .extraReturn => .word "ReturnTypeUnnecessary"

/-- A finding. -/
def Finding.json (f : Finding) : Json :=
  .record [
    ("code", .string f.code),
    ("file", .string f.file.text),
    ("message", .string f.message),
    ("missing", .array (f.shortcomings.map Shortcoming.json)),
    ("name", .string f.name),
    ("range", f.range.json),
    ("severity", f.severity.json),
    ("target", f.target.json)]

end DocAudit
