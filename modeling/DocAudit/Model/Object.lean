import DocAudit.Documentation.Above
import DocAudit.Source.ObjectHeader
import DocAudit.Source.Parameter

/-!
# The model of a source file

A file declares one object, and the object owns procedures and triggers. Every declaration carries
the documentation above it.

* `SourceObject`, `Procedure`, `Parameter`, `Return`: the declarations.
* `SourceObject.declarationAt?`, `SourceObject.procedureAt?`: what is declared on a line.
* `SourceObject.nextProcedure?`: the first procedure below a line.
-/

namespace DocAudit

/-! ## Places -/

/-- A line and a column, both counted from zero. -/
structure Position where
  line : Nat
  column : Nat
deriving DecidableEq, Repr

/-- From the first character to the place after the last one. -/
structure Range where
  start : Position
  stop : Position
deriving DecidableEq, Repr

/-! ## Declarations -/

/-- A parameter and the fragment of documentation that describes it. -/
structure Parameter extends ParameterClause where
  documentation : Documentation
deriving DecidableEq, Repr

/-- What a procedure returns and the fragment of documentation that describes it. -/
structure Return extends ReturnClause where
  documentation : Documentation
deriving DecidableEq, Repr

/-- A procedure or trigger. -/
structure Procedure where
  /-- `everywhere` without an access word. -/
  access : Access
  kind : ProcedureKind
  /-- The name without quotes. -/
  name : Text
  /-- The signature on one line. -/
  declaration : Text
  /-- The number of the first line of the signature. -/
  line : Nat
  /-- The place of the signature. -/
  range : Range
  category : Category
  isTry : Bool
  obsolete : Option Obsolescence
  parameters : List Parameter
  returns : Option Return
  documentation : Documentation
deriving DecidableEq, Repr

/-- An object with everything it owns. -/
structure SourceObject extends ObjectHeader where
  /-- The file it was read from. -/
  file : Path
  /-- The number of its header line. -/
  line : Nat
  /-- `everywhere` unless a property says otherwise. -/
  access : Access
  obsolete : Option Obsolescence
  documentation : Documentation
  /-- In the order of the file. -/
  procedures : List Procedure
deriving DecidableEq, Repr

/-- The kind of the object. -/
def SourceObject.kind (o : SourceObject) : ObjectKind := o.toObjectHeader.kind

/-! ## Lookup by line -/

/-- A declaration of an object. -/
inductive Declaration
  | object (o : SourceObject)
  | procedure (p : Procedure)
deriving DecidableEq, Repr

/-- The documentation of a declaration. -/
def Declaration.documentation : Declaration → Documentation
  | .object o => o.documentation
  | .procedure p => p.documentation

/-- The first index from `low` on, and below `high`, at which `p` fails, found by halving; `high` if
there is none. It is the first one when `p` never holds after it has failed. -/
def firstFailing {α : Type} (p : α → Bool) (xs : List α) (low high : Nat) : Nat :=
  if low < high then
    match xs[(low + high) / 2]? with
    | some x =>
      if p x then firstFailing p xs ((low + high) / 2 + 1) high
      else firstFailing p xs low ((low + high) / 2)
    | none => low
  else low
termination_by high - low

namespace SourceObject

/-- The procedure whose signature a line belongs to. -/
def procedureAt? (o : SourceObject) (line : Nat) : Option Procedure :=
  o.procedures.find? fun p => p.range.start.line ≤ line && line ≤ p.range.stop.line

/-- The object if the line is its header, or else the procedure whose signature it belongs to. -/
def declarationAt? (o : SourceObject) (line : Nat) : Option Declaration :=
  if line = o.line then some (.object o) else (o.procedureAt? line).map .procedure

/-- The first procedure below a line, found by halving since procedures are in order. -/
def nextProcedure? (o : SourceObject) (line : Nat) : Option Procedure :=
  o.procedures[firstFailing (fun p => decide (p.line ≤ line)) o.procedures 0 o.procedures.length]?

end SourceObject

end DocAudit
