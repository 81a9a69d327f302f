import DocAudit.Source.Signature

/-!
# Documentation skeletons

The skeleton of a declaration holds every tag its documentation needs. Each body is a numbered
placeholder `${n:default}` that an editor lets the user fill in; numbers start at one and follow the
order of the tags.

* `ObjectHeader.skeleton`, `ProcedureHeader.skeleton`: the lines of a skeleton.
* `SourceFile.skeletonAt?`: the skeleton for a bare comment marker above a declaration.
-/

namespace DocAudit

/-! ## Escaping -/

/-- The reference for a character that has a meaning in markup. -/
def markupImage? (c : Char) : Option Text :=
  if c = '&' then some "&amp;"
  else if c = '<' then some "&lt;"
  else if c = '>' then some "&gt;"
  else if c = '"' then some "&quot;"
  else none

/-- The text with its markup characters written as references. -/
def escapeMarkup (t : Text) : Text := escapeWith markupImage? t

/-- A backslash before a character that has a meaning in a placeholder. -/
def placeholderImage? (c : Char) : Option Text :=
  if c = '\\' ∨ c = '$' ∨ c = '\x7d' then some ['\\', c] else none

/-- The text with backslashes before its placeholder characters. -/
def escapePlaceholder (t : Text) : Text := escapeWith placeholderImage? t

/-- A numbered placeholder with a default text. -/
def placeholder (number : Nat) (default : Text) : Text :=
  "$\x7b" ++ decimal number ++ ":" ++ escapePlaceholder (escapeMarkup default) ++ "\x7d"

/-! ## Templates -/

/-- The three lines of a summary, which always comes first. -/
def summaryLines (default : Text) : List Text :=
  ["<summary>", placeholder 1 default, "</summary>"]

/-- The line that documents a parameter. -/
def parameterLine (number : Nat) (p : ParameterClause) : Text :=
  "<param name=\"" ++ escapeMarkup p.name ++ "\">" ++ placeholder number (p.dataType ++ ".") ++
    "</param>"

/-- The sentence about a return value. -/
def returnSentence (r : ReturnClause) : Text :=
  match r.name with
  | some name => "Return variable " ++ name ++ " of type " ++ r.dataType ++ "."
  | none => "Return value of type " ++ r.dataType ++ "."

/-- The line that documents a return value. -/
def returnLine (number : Nat) (r : ReturnClause) : Text :=
  "<returns>" ++ placeholder number (returnSentence r) ++ "</returns>"

/-- The lines that document parameters, numbered from `number` on. -/
def parameterLines (number : Nat) : List ParameterClause → List Text
  | [] => []
  | p :: rest => parameterLine number p :: parameterLines (number + 1) rest

/-- The lines of a skeleton as comments, in one text. -/
def asComments (template : List Text) : Text :=
  joinLines (template.map fun line => "/// " ++ line)

/-! ## Objects -/

/-- The capital of a letter that a keyword may start with. -/
def capital (c : Char) : Char := if c = '\u017f' then 'S' else c.toUpper

/-- The small form of a letter that a keyword may hold. -/
def smallLetter (c : Char) : Char := if c = '\u212a' then 'k' else c.toLower

/-- The word with a capital first and small letters after it. -/
def titled : Text → Text
  | [] => []
  | c :: rest => capital c :: rest.map smallLetter

/-- The end of the keywords of objects that extend others. -/
def extensionEnding : Text := "extension"

/-- The name of a kind for people: the keyword in title case, `extension` as a word of its own. -/
def kindLabel (keyword : Text) : Text :=
  match extensionEnding.isSuffixOf? (lower keyword) with
  | some base => if base.isEmpty then titled (lower keyword) else titled base ++ " extension"
  | none => titled (lower keyword)

/-- The sentence about an object. -/
def objectSentence (h : ObjectHeader) : Text :=
  let number := match h.number with
    | some n => " (ID " ++ decimal n ++ ")"
    | none => []
  kindLabel h.keyword ++ " " ++ h.name ++ number ++ "."

/-- The lines of the skeleton of an object. -/
def ObjectHeader.skeletonLines (h : ObjectHeader) : List Text := summaryLines (objectSentence h)

/-- The skeleton of an object. -/
def ObjectHeader.skeleton (h : ObjectHeader) : Text := asComments h.skeletonLines

/-! ## Procedures -/

/-- The lines of the skeleton of a procedure: summary, parameters, return value. -/
def ProcedureHeader.skeletonLines (h : ProcedureHeader) : List Text :=
  summaryLines (h.name ++ ".") ++ parameterLines 2 h.parameters ++
    (h.returns.map (returnLine (2 + h.parameters.length))).toList

/-- The skeleton of a procedure. -/
def ProcedureHeader.skeleton (h : ProcedureHeader) : Text := asComments h.skeletonLines

/-! ## Declarations in a file -/

/-- A header of either kind. -/
inductive Header
  | object (h : ObjectHeader)
  | procedure (h : ProcedureHeader)
deriving DecidableEq, Repr

/-- The header a logical line holds; a procedure is tried first. -/
def Header.read? (line : Text) : Option Header :=
  ((ProcedureHeader.read? line).map .procedure).or ((ObjectHeader.read? line).map .object)

/-- The skeleton of a header. -/
def Header.skeleton : Header → Text
  | .object h => h.skeleton
  | .procedure h => h.skeleton

/-- The lines of a text, each after an indentation. -/
def indented (indent t : Text) : List Text := (lines t).map (indent ++ ·)

/-- What replaces a line of a file. -/
structure Snippet where
  line : Nat
  text : Text
deriving DecidableEq, Repr

namespace SourceFile

/-- The first line from number `n` on that is neither blank nor part of an attribute. -/
def declarationFrom (n : Nat) (rest : List Text) : Nat :=
  match rest with
  | [] => n
  | line :: others =>
    match readAttribute? (line :: others) with
    | some (_, extra) => declarationFrom (n + 1 + extra) (others.drop extra)
    | none => if allBlank line then declarationFrom (n + 1) others else n
termination_by rest.length

/-- The header on line `n`, a signature of several lines put on one. -/
def logicalLine? (f : SourceFile) (n : Nat) : Option Text :=
  (f.line? n).map fun line => if startsProcedure line then (f.signatureAt n).1 else line

/-- Whether line `n` is a bare comment marker, with no comment directly above it. -/
def isCursorLine (f : SourceFile) (n : Nat) : Bool :=
  (f.line? n).any (fun line => trim line == commentMarker) &&
    !(n != 0 && (f.line? (n - 1)).any isStructuredComment)

/-- The line that the skeleton asked for on line `n` documents. -/
def documentedLine (f : SourceFile) (n : Nat) : Nat := declarationFrom (n + 1) (f.linesFrom (n + 1))

/-- The skeleton for the declaration below a bare comment marker, indented like the marker. -/
def skeletonAt? (f : SourceFile) (cursor : Nat) : Option Snippet := do
  let line ← f.line? cursor
  if f.isCursorLine cursor then
    let next ← f.line? (f.documentedLine cursor)
    if startsProcedure next || isObjectHeader next then
      let header ← Header.read? (← f.logicalLine? (f.documentedLine cursor))
      return { line := cursor, text := joinLines (indented (indentOf line) header.skeleton) }
    else none
  else none

end SourceFile

end DocAudit
