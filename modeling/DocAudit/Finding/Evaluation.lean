import DocAudit.Finding.Basic
import DocAudit.Model.Reading

/-!
# Evaluation

Each declaration of an object is compared with its documentation, and at most one finding comes of
it. Documentation that is inherited is not looked into.

* `shortcomings`: what the tags of a procedure lack or have too much of.
* `SourceObject.evaluate`: the findings of an object.
-/

namespace DocAudit

/-- Whether a tag is there and has text. -/
def hasText (tag : Option Tag) : Bool := tag.any (!·.text.isEmpty)

/-- What the tags of a procedure lack or have too much of, in the order of a report. -/
def shortcomings (p : Procedure) (tags : Tags) : List Shortcoming :=
  if tags.inherit.isSome then []
  else
    (if hasText tags.summary then [] else [.noSummary]) ++
    (p.parameters.filter fun q => !(tags.parameter? q.name).any (!·.text.isEmpty)).map
      (fun q => .noParameter q.name) ++
    (if p.returns.isSome && !hasText tags.returns then [.noReturn] else []) ++
    (tags.parameters.filter fun t => !p.parameters.any (sameWord ·.name t.name)).map
      (fun t => .extraParameter t.name) ++
    (if p.returns.isNone && tags.returns.isSome then [.extraReturn] else [])

namespace SourceObject

/-- A finding about a declaration of the object. -/
def finding (o : SourceObject) (s : Settings) (target : Target) (word name : Text) (range : Range)
    (shortcomings : List Shortcoming) : Finding where
  file := o.file
  name := name
  target := target
  range := range
  shortcomings := shortcomings
  code := mergedCode shortcomings
  message := mergedMessage (word ++ ' ' :: Shortcoming.quoted name) shortcomings
  severity := s.severity

/-- What the documentation of the object itself lacks: only a summary is asked of it. -/
def headerShortcomings (o : SourceObject) : List Shortcoming :=
  match o.documentation with
  | none => [.undocumented]
  | some raw =>
    let tags := Tags.read raw
    if tags.inherit.isSome || hasText tags.summary then [] else [.noSummary]

/-- Whether the object itself is checked. -/
def isChecked (o : SourceObject) (s : Settings) : Bool :=
  s.checkObjects && s.requires o.access && (o.obsolete.isNone || s.checkObsolete)

/-- The header line of the object, up to the start of the next line. -/
def headerRange (o : SourceObject) : Range := ⟨⟨o.line, 0⟩, ⟨o.line + 1, 0⟩⟩

/-- The finding about the object itself. -/
def headerFinding? (o : SourceObject) (s : Settings) : Option Finding :=
  if o.isChecked s && !o.headerShortcomings.isEmpty then
    some (o.finding s .object (lower o.keyword) o.name o.headerRange o.headerShortcomings)
  else none

end SourceObject

/-- Whether a procedure is checked. -/
def Procedure.isChecked (p : Procedure) (s : Settings) : Bool :=
  s.requires p.access && (p.kind != .trigger || s.checkTriggers) &&
    (p.obsolete.isNone || s.checkObsolete)

/-- What the documentation of a procedure lacks or has too much of. -/
def Procedure.shortcomings (p : Procedure) : List Shortcoming :=
  match p.documentation with
  | none => [.undocumented]
  | some raw => DocAudit.shortcomings p (Tags.read raw)

namespace SourceObject

/-- The finding about a procedure of the object. -/
def procedureFinding? (o : SourceObject) (s : Settings) (p : Procedure) : Option Finding :=
  if p.isChecked s && !p.shortcomings.isEmpty then
    some (o.finding s .procedure p.kind.word p.name p.range p.shortcomings)
  else none

/-- The findings of an object: about itself first, then about its procedures in order. -/
def evaluate (o : SourceObject) (s : Settings) : List Finding :=
  (o.headerFinding? s).toList ++
    if s.checkProcedures then o.procedures.filterMap (o.procedureFinding? s) else []

end SourceObject

end DocAudit
