import DocAudit.Source.TopLevel
import DocAudit.Source.Word

/-!
# Parameters and return clauses

The text between the parentheses of a procedure header lists parameters, separated by semicolons;
the text after them may name what the procedure returns.

    var Line: Record "Sales Line" temporary; Quantity: Decimal
    Result: Boolean

* `ParameterClause.readAll`: the parameters of a list.
* `ReturnClause.read?`: a return clause.
-/

namespace DocAudit

/-! ## Parameters -/

/-- One parameter as declared. -/
structure ParameterClause where
  /-- The name without `var` and quotes. -/
  name : Text
  /-- The type as written, trimmed. -/
  dataType : Text
  /-- What follows the first word of the type, without quotes and `temporary`. -/
  subtype : Option Text
  /-- Declared with `var`. -/
  byReference : Bool
  /-- Declared `temporary`. -/
  temporary : Bool
deriving DecidableEq, Repr

/-- The name after a leading `var`; none when the name stands alone. -/
def afterVar? (name : Text) : Option Text := do
  let (_, rest) ← readFolded "var" name
  let name ← blankRun rest
  if name.isEmpty || name.any (· = '\n') then none else some name

/-- The type before a trailing `temporary`; none without one. -/
def beforeTemporary? (dataType : Text) : Option Text := do
  let word : Text := "temporary"
  let base := dataType.take (dataType.length - word.length)
  let (_, rest) ← readFolded word (dataType.drop base.length)
  if rest.isEmpty && base.getLast?.any isBlank && (trimRight base).all (· ≠ '\n') then
    some (trim base)
  else none

/-- What a type says after its first word. -/
def subtypeOf? (dataType : Text) : Option Text :=
  match splitFirst isBlank dataType with
  | some (_, rest) => if unquote rest = [] then none else some (unquote rest)
  | none => none

/-- A parameter from its name and type. -/
def ParameterClause.of (name dataType : Text) : ParameterClause where
  name := unquote ((afterVar? name).getD name)
  dataType := dataType
  subtype := subtypeOf? ((beforeTemporary? dataType).getD dataType)
  byReference := (afterVar? name).isSome
  temporary := (beforeTemporary? dataType).isSome

/-- One piece of a parameter list: the name up to the first top-level colon, then the type. A piece
with nothing but colons is no parameter. -/
def ParameterClause.read? (piece : Text) : Option ParameterClause :=
  match splitTopLevel ':' (trim piece) with
  | [] => none
  | name :: _ => some (.of (trim name) (trim ((trim piece).drop (name.length + 1))))

/-- The parameters of a list, in order. -/
def ParameterClause.readAll (list : Text) : List ParameterClause :=
  (splitTopLevel ';' list).filterMap ParameterClause.read?

/-! ## Return clauses -/

/-- What a procedure returns: a type, and possibly a name for the result. -/
structure ReturnClause where
  name : Option Text
  dataType : Text
deriving DecidableEq, Repr

/-- The type after the colon of a return clause, which stands on one line. -/
def returnType? : Text → Option Text
  | [] => none
  | c :: rest =>
    if c = ':' ∧ trimLeft rest ≠ [] ∧ (trimLeft rest).all (· ≠ '\n') then some (trim rest) else none

/-- The clause `: Type` or `Name: Type`. -/
def ReturnClause.read? (clause : Text) : Option ReturnClause :=
  match name? (trim clause) with
  | some (name, rest) =>
    (returnType? (trimLeft rest)).map fun dataType => { name := some (unquote name), dataType }
  | none => (returnType? (trim clause)).map fun dataType => { name := none, dataType }

end DocAudit
