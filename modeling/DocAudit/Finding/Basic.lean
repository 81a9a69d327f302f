import DocAudit.Documentation.Tags
import DocAudit.Model.Object

/-!
# Findings

A finding says what the documentation of one declaration lacks or has too much of.

* `Shortcoming`: one thing that is wrong, with its code and its words.
* `mergedCode`, `mergedMessage`: several of them in one code and one sentence.
* `Finding`: the report on a declaration.
-/

namespace DocAudit

/-- One thing that is wrong with the documentation of a declaration. -/
inductive Shortcoming
  /-- There is no documentation at all. -/
  | undocumented
  /-- No summary, or an empty one. -/
  | noSummary
  /-- A declared parameter has no tag, or an empty one. -/
  | noParameter (name : Text)
  /-- A tag names no declared parameter. -/
  | extraParameter (name : Text)
  /-- The return value has no tag, or an empty one. -/
  | noReturn
  /-- A tag describes a return value, and nothing is returned. -/
  | extraReturn
deriving DecidableEq, Repr

namespace Shortcoming

/-- The code that stays the same whatever the names. -/
def code : Shortcoming → Text
  | undocumented => "DOC0001"
  | noSummary => "DOC0010"
  | noParameter _ => "DOC0020"
  | extraParameter _ => "DOC0021"
  | noReturn => "DOC0030"
  | extraReturn => "DOC0031"

/-- A name between single quotes. -/
def quoted (name : Text) : Text := '\'' :: name ++ ['\'']

/-- The words for it in a sentence. -/
def words : Shortcoming → Text
  | undocumented => "documentation missing"
  | noSummary => "summary missing"
  | noParameter name => "parameter " ++ quoted name ++ " missing"
  | extraParameter name => "parameter " ++ quoted name ++ " unnecessary"
  | noReturn => "return value missing"
  | extraReturn => "return value unnecessary"

end Shortcoming

/-- The members of a list without repeats, each where it occurs first. -/
def distinct {α : Type} [BEq α] : List α → List α
  | [] => []
  | a :: rest => a :: (distinct rest).filter (· != a)

/-- The codes, each once, joined by commas. -/
def mergedCode (shortcomings : List Shortcoming) : Text :=
  List.intercalate "," (distinct (shortcomings.map Shortcoming.code))

/-- One sentence for all of them. -/
def mergedMessage (label : Text) (shortcomings : List Shortcoming) : Text :=
  if shortcomings.contains .undocumented then "Documentation for " ++ label ++ " is missing."
  else
    "Documentation for " ++ label ++ " is incomplete: " ++
      List.intercalate ", " (shortcomings.map Shortcoming.words) ++ "."

/-- Which kind of declaration a finding is about. -/
inductive Target
  | object
  | procedure
deriving DecidableEq, Repr

/-- The report on one declaration. -/
structure Finding where
  file : Path
  /-- The name of the declaration. -/
  name : Text
  target : Target
  range : Range
  shortcomings : List Shortcoming
  code : Text
  message : Text
  severity : Severity
deriving DecidableEq, Repr

end DocAudit
