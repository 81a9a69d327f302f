import DocAudit.Report.Json

/-!
# Reports for people

* `Finding.line`: a finding on one line, as compilers report errors.
* `markdownReport`: findings in a list for each file.
* `report`: findings in a chosen format.
* `SourceObject.outline`: what the model of an object holds.

Lines and columns are counted from one here.
-/

namespace DocAudit

/-- A finding on one line. -/
def Finding.line (f : Finding) : Text :=
  f.file.text ++ ":" ++ decimal (f.range.start.line + 1) ++ ":" ++
    decimal (f.range.start.column + 1) ++ ": " ++ f.severity.word ++ "[" ++ f.code ++ "] " ++ f.message

/-- A finding in a list of its file. -/
def Finding.bullet (f : Finding) : Text :=
  "- line " ++ decimal (f.range.start.line + 1) ++ ": `" ++ f.code ++ "` " ++ f.message ++ "\n"

/-- The heading before the findings of a file, apart from what stands above it. -/
def fileHeading (file : Path) (above : Option Path) : Text :=
  (if above.isSome then ("\n" : Text) else []) ++ "## " ++ file.text ++ "\n\n"

/-- The rest of a report in markdown, below a list for the file `current`. A finding of another
file starts a new list. -/
def markdownFrom (current : Option Path) : List Finding → Text
  | [] => []
  | f :: rest =>
    (if current.any f.file.same then [] else fileHeading f.file current) ++ f.bullet ++
      markdownFrom (some f.file) rest

/-- Findings in markdown, one list for each run of findings of a file. -/
def markdownReport (findings : List Finding) : Text := markdownFrom none findings

/-- How findings are printed. -/
inductive Format
  | json
  | markdown
  | text
deriving DecidableEq, Repr

/-- The words for formats. -/
def Format.words : List (Text × Format) :=
  [("json", .json), ("markdown", .markdown), ("text", .text)]

/-- Some lines, each with its end. -/
def printLines (ls : List Text) : Text := ls.flatMap (· ++ "\n")

/-- Findings as they are printed. -/
def report (format : Format) (findings : List Finding) : Text :=
  match format with
  | .json => Json.pretty 0 (.array (findings.map Finding.json)) ++ "\n"
  | .markdown => markdownReport findings
  | .text => printLines (findings.map Finding.line)

/-! ## Outlines -/

/-- Whether something is documented, in a word. -/
def Documentation.status (d : Documentation) : Text :=
  if d.isSome then "documented" else "undocumented"

/-- A line number as outlines give it, and a status. -/
def placeAndStatus (line : Nat) (d : Documentation) : Text :=
  " (line " ++ decimal (line + 1) ++ ") " ++ Documentation.status d

/-- The line of an outline about a parameter. -/
def Parameter.outline (p : Parameter) : Text :=
  "    param " ++ (if p.byReference then ("var " : Text) else []) ++ p.name ++ ": " ++ p.dataType ++
    " " ++ Documentation.status p.documentation

/-- The line of an outline about a return value. -/
def Return.outline (r : Return) : Text :=
  "    returns " ++ r.dataType ++ " " ++ Documentation.status r.documentation

/-- The lines of an outline about a procedure. -/
def Procedure.outline (p : Procedure) : List Text :=
  ("  " ++ p.kind.word ++ " " ++ p.name ++ placeAndStatus p.line p.documentation) ::
    p.parameters.map Parameter.outline ++ (p.returns.map Return.outline).toList

/-- The line of an outline about the object itself. -/
def SourceObject.outlineHeader (o : SourceObject) : Text :=
  let number := match o.number with
    | some n => ' ' :: decimal n
    | none => []
  lower o.keyword ++ number ++ " \"" ++ o.name ++ "\"" ++ placeAndStatus o.line o.documentation

/-- The outline of an object. -/
def SourceObject.outline (o : SourceObject) : Text :=
  printLines (o.outlineHeader :: o.procedures.flatMap Procedure.outline)

end DocAudit
