import DocAudit.Documentation.Tags
import DocAudit.Model.Object
import DocAudit.Settings
import DocAudit.Source.Signature

/-!
# Reading the model

One pass over the lines of a file yields the object it declares. Comments are passed over,
attributes are collected for the procedure below them, and the pass ends with the brace that closes
the object.

* `SourceFile.step`: what one line does to the reading.
* `SourceFile.object?`: the object of a file.
-/

namespace DocAudit

/-! ## Properties -/

/-- The properties of an object that the model keeps. The last mention of each counts. -/
structure Properties where
  access : Option Access := none
  reason : Option Text := none
  stage : Option Stage := none
deriving DecidableEq, Repr

/-- What may follow the value of a property: blanks and one semicolon. -/
def endsProperty (t : Text) : Bool :=
  match trimLeft t with
  | [] => true
  | c :: rest => c = ';' && allBlank rest

/-- The shortest text, not empty, after which a property may end. -/
def shortestValue : Text → Text
  | [] => []
  | c :: rest => if endsProperty rest then [c] else c :: shortestValue rest

/-- The value after the equals sign of a property. Blanks alone are a value too, which says
nothing; without even a blank there is no property. -/
def propertyValue? (t : Text) : Option Text :=
  if t = [] then none else some (shortestValue (trimLeft t))

/-- The name of the property on a line, in lower case, and its value. -/
def property? (line : Text) : Option (Text × Text) :=
  let t := trimLeft (stripComment line)
  match trimLeft (t.dropWhile Char.isAlpha) with
  | [] => none
  | c :: rest =>
    if c = '=' then (propertyValue? rest).map (lower (t.takeWhile Char.isAlpha), ·) else none

/-- The words for stages of retirement. -/
def stageWords : List (Text × Stage) := [("pending", .pending), ("removed", .removed)]

/-- The properties with a line taken into account. -/
def Properties.absorb (p : Properties) (line : Text) : Properties :=
  match property? line with
  | some (name, value) =>
    if name = ("access" : Text) then { p with access := Access.ofWord? value }
    else if name = ("obsoletereason" : Text) then { p with reason := firstLiteral value }
    else if name = ("obsoletestate" : Text) then { p with stage := stageWords.lookup (lower value) }
    else p
  | none => p

/-- The object with its properties: a reason counts only with a stage. -/
def Properties.apply (p : Properties) (o : SourceObject) : SourceObject :=
  { o with
    access := p.access.getD o.access
    obsolete := (p.stage.map fun stage => ⟨p.reason.getD [], stage⟩).or o.obsolete }

/-! ## Declarations -/

/-- The tags of a documentation; none without one. -/
def Documentation.tags : Documentation → Tags
  | none => {}
  | some raw => Tags.read raw

/-- A declared parameter with its fragment of the documentation. -/
def ParameterClause.document (tags : Tags) (c : ParameterClause) : Parameter :=
  { toParameterClause := c, documentation := (tags.parameter? c.name).map (·.markup) }

/-- A return clause with its fragment of the documentation. -/
def ReturnClause.document (tags : Tags) (c : ReturnClause) : Return :=
  { toReturnClause := c, documentation := tags.returns.map (·.markup) }

namespace SourceFile

/-- The place of the signature on lines `first` to `last`, without the blanks around it. -/
def signatureRange (f : SourceFile) (first last : Nat) : Range where
  start := { line := first, column := (indentOf ((f.line? first).getD [])).length }
  stop := { line := last, column := (trimRight ((f.line? last).getD [])).length }

/-- The procedure whose signature stands on lines `first` to `last`. -/
def procedure (f : SourceFile) (first last : Nat) (declaration : Text) (header : ProcedureHeader)
    (traits : Traits) : Procedure :=
  let documentation := f.documentationAbove first
  { access := header.access.getD .everywhere
    kind := header.kind
    name := header.name
    declaration
    line := first
    range := f.signatureRange first last
    category := traits.categoryOrNormal
    isTry := traits.isTry
    obsolete := traits.obsolete
    parameters := header.parameters.map (ParameterClause.document documentation.tags)
    returns := header.returns.map (ReturnClause.document documentation.tags)
    documentation }

/-- The object whose header stands on a line, before anything in it has been read. -/
def emptyObject (f : SourceFile) (line : Nat) (header : ObjectHeader) : SourceObject where
  toObjectHeader := header
  file := f.path
  line := line
  access := .everywhere
  obsolete := none
  documentation := f.documentationAbove line
  procedures := []

end SourceFile

/-! ## The pass -/

/-- What is known at some line of the pass. -/
structure Reading where
  object : Option SourceObject := none
  properties : Properties := {}
  /-- The attributes above the current line. -/
  attributes : List Text := []
  /-- The braces of the object. -/
  braces : Braces := {}
  /-- Whether any declaration has been met. -/
  declared : Bool := false
  /-- Whether the current line stands in a block comment. -/
  inComment : Bool := false
deriving DecidableEq, Repr

/-- What a line does to the reading. -/
inductive Step
  /-- Go on, passing over `extra` further lines. -/
  | next (reading : Reading) (extra : Nat)
  /-- The object is closed. -/
  | done (reading : Reading)
  /-- The file is a body without a declaration. -/
  | fragment

/-- The object with the procedures and properties met so far. -/
def Reading.result (r : Reading) : Option SourceObject := r.object.map r.properties.apply

/-- The object with one more procedure. -/
def SourceObject.addProcedure (o : SourceObject) (p : Procedure) : SourceObject :=
  { o with procedures := o.procedures ++ [p] }

namespace SourceFile

/-- The reading after the signature of a procedure, which counts only inside an object and if the
settings allow it. -/
def readProcedure (f : SourceFile) (s : Settings) (first last : Nat) (declaration : Text)
    (header : ProcedureHeader) (r : Reading) : Reading :=
  let traits := Traits.of r.attributes
  { r with
    declared := true
    attributes := []
    object :=
      if s.allowsTraits traits then
        r.object.map (·.addProcedure (f.procedure first last declaration header traits))
      else r.object }

/-- The reading after a line inside the object that declares nothing. -/
def readBody (o : SourceObject) (line : Text) (r : Reading) : Reading :=
  { r with
    attributes := []
    properties :=
      if r.braces.depth = 1 ∧ o.procedures = [] then r.properties.absorb (trim line)
      else r.properties
    braces := r.braces.countLine line }

/-- What a line does that is neither comment, attribute nor procedure. -/
def readPlain (f : SourceFile) (n : Nat) (line : Text) (r : Reading) : Step :=
  match r.object with
  | some o =>
    let after := readBody o line r
    if after.braces.closed then .done after else .next after 0
  | none =>
    if !r.declared && isBlockBoundary line then .fragment
    else
      match ObjectHeader.read? line with
      | some header =>
        .next
          { r with
            attributes := []
            declared := true
            object := some (f.emptyObject n header)
            braces := r.braces.countLine line }
          0
      | none => .next { r with attributes := [] } 0

/-- The procedure header that opens on a line, with its logical line and how many lines it takes
beyond the first. -/
def headerAt? (line : Text) (rest : List Text) : Option (ProcedureHeader × Text × Nat) :=
  if startsProcedure line then
    let (whole, extra) := readSignature (line :: rest)
    (ProcedureHeader.read? whole).map (·, whole, extra)
  else none

/-- What line `n` does, with the lines after it at hand. -/
def step (f : SourceFile) (s : Settings) (n : Nat) (line : Text) (rest : List Text)
    (r : Reading) : Step :=
  if r.inComment || ("/*" : Text).isPrefixOf (trim line) then
    .next { r with inComment := !Text.has "*/" (trim line) } 0
  else if allBlank line || isInlineComment line || isStructuredComment line then .next r 0
  else
    match readAttribute? (line :: rest) with
    | some (whole, extra) => .next { r with attributes := r.attributes ++ [whole] } extra
    | none =>
      match headerAt? line rest with
      | some (header, whole, extra) =>
        .next (f.readProcedure s n (n + extra) whole header r) extra
      | none => f.readPlain n line r

/-- The pass over the lines from number `n` on. -/
def readFrom (f : SourceFile) (s : Settings) (n : Nat) (rest : List Text) (r : Reading) :
    Option SourceObject :=
  match rest with
  | [] => r.result
  | line :: others =>
    match f.step s n line others r with
    | .next r extra => f.readFrom s (n + 1 + extra) (others.drop extra) r
    | .done r => r.result
    | .fragment => none
termination_by rest.length

/-- The object that a file declares: the first one, if there are several. -/
def object? (f : SourceFile) (s : Settings) : Option SourceObject :=
  f.readFrom s 0 f.lines {}

end SourceFile

end DocAudit
