import DocAudit.Source.Parameter
import DocAudit.Vocabulary

/-!
# Procedure headers

A procedure header is one logical line: an optional access word, `procedure` or `trigger`, a name,
parameters in parentheses, and possibly a return clause.

    local procedure DoWork(var Input: Integer): Boolean;

* `ProcedureHead.read?`: the part up to the opening parenthesis.
* `ProcedureHeader.read?`: the whole header.
* `startsProcedure`, `parametersClosed`: what can be said of an unfinished header.
-/

namespace DocAudit

/-- A header up to its opening parenthesis. -/
structure ProcedureHead where
  access : Option Access
  kind : ProcedureKind
  /-- The name as written, quotes included. -/
  writtenName : Text
deriving DecidableEq, Repr

/-- The access words that may stand before a procedure. -/
def modifierWords : List Text := ["local", "internal", "protected"]

/-- The words that introduce a procedure. -/
def procedureWords : List (Text × ProcedureKind) :=
  [("procedure", .procedure), ("trigger", .trigger)]

/-- The access word at the start of a text, if there is one, and the text after it. -/
def readModifier (t : Text) : Option Access × Text :=
  match keyword? modifierWords t with
  | some (word, _, rest) => (Access.ofWord? word, rest)
  | none => (none, t)

/-- The head at the start of a text, and the text after the parenthesis that ends it. -/
def ProcedureHead.read? (t : Text) : Option (ProcedureHead × Text) := do
  let (access, afterAccess) := readModifier (trimLeft t)
  let (word, _, afterKind) ← keyword? (procedureWords.map (·.1)) afterAccess
  let kind ← procedureWords.lookup word
  let (writtenName, afterName) ← name? afterKind
  match trimLeft afterName with
  | c :: rest => if c = '(' then some ({ access, kind, writtenName }, rest) else none
  | [] => none

/-- Whether a line starts a procedure or trigger, finished or not. -/
def startsProcedure (line : Text) : Bool := (ProcedureHead.read? (stripComment line)).isSome

/-- Whether the parameter list that a text opens is closed in it. -/
def parametersClosed (t : Text) : Bool :=
  match ProcedureHead.read? t with
  | some (_, rest) => (closeParenthesis .outside 0 rest).isSome
  | none => false

/-- What a logical line says about its procedure. -/
structure ProcedureHeader where
  /-- The access word, if there is one. -/
  access : Option Access
  kind : ProcedureKind
  /-- The name without quotes. -/
  name : Text
  /-- The text between the parentheses, trimmed. -/
  parameterText : Text
  /-- The text after the parentheses, when it is a return clause. -/
  returnText : Option Text
deriving DecidableEq, Repr

/-- The parameters of the header, in order. -/
def ProcedureHeader.parameters (h : ProcedureHeader) : List ParameterClause :=
  ParameterClause.readAll h.parameterText

/-- The return clause of the header. -/
def ProcedureHeader.returns (h : ProcedureHeader) : Option ReturnClause :=
  h.returnText.bind ReturnClause.read?

/-- A trimmed text without the semicolon at its end. -/
def dropSemicolon (t : Text) : Text :=
  if (trim t).getLast? = some ';' then trim (trim t).dropLast else trim t

/-- The text after the parentheses, if it is a return clause. -/
def returnText? (after : Text) : Option Text :=
  let clause := dropSemicolon after
  if (ReturnClause.read? clause).isSome then some clause else none

/-- The procedure header a logical line holds; none if the line is something else or its
parentheses do not close. -/
def ProcedureHeader.read? (line : Text) : Option ProcedureHeader := do
  let (head, rest) ← ProcedureHead.read? (stripComment line)
  let (inside, after) ← closeParenthesis .outside 0 rest
  return {
    access := head.access
    kind := head.kind
    name := unquote head.writtenName
    parameterText := trim inside
    returnText := returnText? after }

end DocAudit
