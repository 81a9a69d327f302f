import DocAudit.Text.Blank
import DocAudit.Source.Word
import DocAudit.Markup.Reference

/-!
# Stray markup

Documentation is prose first: an `&` that starts no reference and a `<` that opens no documentation
tag stand for themselves. Before a block is read as markup they are written as references.

* `escapeStray`: the text with its stray characters escaped, and where the escapes are.
* `Escaped.rawOffset`: the place in the block that a place in the escaped text comes from.
-/

namespace DocAudit

/-- The tags of documentation. -/
def documentationTags : List Text :=
  ["b", "br", "c", "code", "description", "example", "exception", "i", "inheritdoc", "item", "list",
    "listheader", "para", "param", "paramref", "remarks", "returns", "see", "seealso", "summary",
    "term", "typeparam", "typeparamref", "u", "value"]

/-- Whether what follows the name of a tag ends it: an angle bracket at once, or after a blank or
slash and no other angle bracket. -/
def endsTag : Text → Bool
  | [] => false
  | c :: rest =>
    c = '>' ||
      ((isBlank c || c = '/') && (rest.find? fun d => d = '<' || d = '>') = some '>')

/-- Whether the text after a `<` makes it a documentation tag, a comment or literal text. -/
def opensMarkup (t : Text) : Bool :=
  ("!--" : Text).isPrefixOf t || ("![CDATA[" : Text).isPrefixOf t ||
    let name := if t.head? = some '/' then t.drop 1 else t
    documentationTags.any fun tag =>
      match readFolded tag name with
      | some (_, rest) => endsTag rest
      | none => false

/-- What replaces a character, seen together with the text after it; none if it may stay. -/
def strayImage? (c : Char) (rest : Text) : Option Text :=
  if c = '&' then if (Markup.Reference.read? rest).isSome then none else some "&amp;"
  else if c = '<' then if opensMarkup rest then none else some "&lt;"
  else none

/-- A block with its stray characters escaped. -/
structure Escaped where
  /-- The place of each escape in `text`, and how many characters it added. -/
  escapes : List (Nat × Nat)
  text : Text
deriving DecidableEq, Repr

/-- One character kept. -/
def Escaped.keep (c : Char) (e : Escaped) : Escaped := { e with text := c :: e.text }

/-- One character replaced by `image`, which then stands at `place`. -/
def Escaped.replace (place : Nat) (image : Text) (e : Escaped) : Escaped where
  escapes := (place, image.length - 1) :: e.escapes
  text := image ++ e.text

/-- The rest of a block escaped, when what precedes it takes `place` characters. -/
def escapeFrom (place : Nat) : Text → Escaped
  | [] => { escapes := [], text := [] }
  | c :: rest =>
    match strayImage? c rest with
    | some image => (escapeFrom (place + image.length) rest).replace place image
    | none => (escapeFrom (place + 1) rest).keep c

/-- The block with every stray character escaped. -/
def escapeStray (raw : Text) : Escaped := escapeFrom 0 raw

/-- How many characters were added by the escapes that stand before a place. Escapes are in the
order of their places. -/
def addedBefore (offset : Nat) : List (Nat × Nat) → Nat
  | [] => 0
  | (place, added) :: rest => if place < offset then added + addedBefore offset rest else 0

/-- The place in the block that corresponds to a place in the escaped text: what the escapes
before it added is taken off. -/
def Escaped.rawOffset (e : Escaped) (offset : Nat) : Nat := offset - addedBefore offset e.escapes

end DocAudit
