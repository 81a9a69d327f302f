import DocAudit.Documentation.Escape
import DocAudit.Markup.Element
import DocAudit.Source.Quoting
import DocAudit.Text.Lines

/-!
# Documentation tags

The tags at the top of a documentation block, each with its text and the fragment as written. A
block that is not well-formed even with its stray characters escaped has no tags.

* `Tags.read`: the tags of a block.
* `Tags.parameter?`: the tag that documents a parameter.
-/

namespace DocAudit

/-- A tag: the fragment as written, and its text with every line trimmed. -/
structure Tag where
  markup : Text
  text : Text
deriving DecidableEq, Repr

/-- A `param` tag, which names the parameter it documents. -/
structure ParameterTag where
  name : Text
  markup : Text
  text : Text
deriving DecidableEq, Repr

/-- An `inheritdoc` tag and what it refers to, if it says so. -/
structure InheritTag where
  reference : Option Text
deriving DecidableEq, Repr

/-- The tags of a block. -/
structure Tags where
  /-- The block is not well-formed; there are no tags then. -/
  malformed : Bool := false
  /-- The first `summary`. -/
  summary : Option Tag := none
  /-- The first `returns`. -/
  returns : Option Tag := none
  /-- The first `remarks`. -/
  remarks : Option Tag := none
  /-- Every `example`, in order. -/
  examples : List Tag := []
  /-- Every `param` with a name, in order. -/
  parameters : List ParameterTag := []
  /-- The last `inheritdoc`. -/
  inherit : Option InheritTag := none
deriving DecidableEq, Repr

namespace Tags

/-- The first tag that documents a parameter of this name. -/
def parameter? (t : Tags) (name : Text) : Option ParameterTag :=
  t.parameters.find? fun p => sameWord p.name name

/-- The tags with one more element taken into account. -/
def add (t : Tags) (e : Markup.Element) (tag : Tag) : Tags :=
  let kind := lower e.name
  if kind = ("summary" : Text) then { t with summary := t.summary.or (some tag) }
  else if kind = ("returns" : Text) then { t with returns := t.returns.or (some tag) }
  else if kind = ("remarks" : Text) then { t with remarks := t.remarks.or (some tag) }
  else if kind = ("example" : Text) then { t with examples := t.examples ++ [tag] }
  else if kind = ("param" : Text) then
    match e.attribute? "name" with
    | some name =>
      { t with parameters := t.parameters ++ [⟨unquote name, tag.markup, tag.text⟩] }
    | none => t
  else if kind = ("inheritdoc" : Text) then
    { t with inherit := some ⟨(e.attribute? "cref").map trim⟩ }
  else t

/-- The part of a block from one place to another. -/
def slice (raw : Text) (start stop : Nat) : Text := (raw.drop start).take (stop - start)

/-- The tag that an element of the escaped block stands for: its fragment is taken from the block
as written. -/
def tagOf (raw : Text) (escaped : Escaped) (e : Markup.Element) : Tag where
  markup := slice raw (escaped.rawOffset e.start) (escaped.rawOffset e.stop)
  text := tidy e.text

/-- The tags of a documentation block. -/
def read (raw : Text) : Tags :=
  let escaped := escapeStray raw
  match Markup.elements? escaped.text with
  | some elements => elements.foldl (fun t e => t.add e (tagOf raw escaped e)) {}
  | none => { malformed := true }

end Tags

end DocAudit
