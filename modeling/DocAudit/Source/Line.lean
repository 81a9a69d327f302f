import DocAudit.Source.ObjectHeader

/-!
# Kinds of lines

What one line is, seen by itself.

* `isInlineComment`, `isStructuredComment`: `//` and `///`.
* `isBlockBoundary`: a bare `begin` or `end`.
* `isObjectHeader`: a header as `ObjectHeader.read?` reads it.
-/

namespace DocAudit

/-- The marker of a structured comment. -/
def commentMarker : Text := "///"

/-- Whether the line is a `///` comment. -/
def isStructuredComment (line : Text) : Bool := commentMarker.isPrefixOf (trimLeft line)

/-- Whether the line is a `//` comment and no structured one. -/
def isInlineComment (line : Text) : Bool :=
  ("//" : Text).isPrefixOf (trimLeft line) && !isStructuredComment line

/-- The words that open and close a body. -/
def boundaryWords : List Text := ["begin", "end", "end;"]

/-- Whether the line is the edge of a body: the word stands alone on it, a comment apart. -/
def isBlockBoundary (line : Text) : Bool := boundaryWords.contains (lower (codeOf line))

/-- Whether the line is an object header. -/
def isObjectHeader (line : Text) : Bool := (ObjectHeader.read? line).isSome

end DocAudit
