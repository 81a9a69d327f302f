import DocAudit.Source.Line
import DocAudit.Source.SourceFile

/-!
# Attributes

An attribute stands in square brackets above a procedure, on one line or on several.

    [Obsolete('Use Post2.', '24.0')]

* `Attribute.read?`: the attribute on one line.
* `readAttribute?`: the attribute that opens on the first of some lines, put on one line.
* `SourceFile.attributeEndingAt?`: the same attribute, found from its last line.
* `Traits.of`: what the attributes above a procedure say about it.
-/

namespace DocAudit

/-! ## One line -/

/-- The name of an attribute and the text between its parentheses. -/
structure Attribute where
  name : Text
  arguments : Text
deriving DecidableEq, Repr

/-- The first character of an attribute's name. -/
def startsAttributeName (c : Char) : Bool := c.isAlpha || c = '_'

/-- A later character of an attribute's name. -/
def continuesAttributeName (c : Char) : Bool := startsAttributeName c || c.isDigit

/-- The text between parentheses that make up a whole text. -/
def parenthesized? : Text → Option Text
  | [] => none
  | c :: rest =>
    if c = '(' ∧ rest.getLast? = some ')' ∧ rest.dropLast.all (· ≠ '\n') then some rest.dropLast
    else none

/-- What stands between the brackets of an attribute. -/
def Attribute.body? (inside : Text) : Option Attribute :=
  let name := inside.takeWhile continuesAttributeName
  let rest := trim (inside.dropWhile continuesAttributeName)
  if name.head?.any startsAttributeName then
    if rest = [] then some { name, arguments := [] }
    else (parenthesized? rest).map fun arguments => { name, arguments }
  else none

/-- The attribute a line holds, if it holds nothing else but a comment. -/
def Attribute.read? (line : Text) : Option Attribute :=
  match codeOf line with
  | [] => none
  | c :: rest =>
    if c = '[' ∧ rest.getLast? = some ']' then Attribute.body? (trimLeft rest.dropLast) else none

/-- Whether a line is a complete attribute. -/
def isAttribute (line : Text) : Bool := (Attribute.read? line).isSome

/-! ## Several lines -/

/-- The most lines that may follow the first line of an attribute. -/
def maxAttributeLines : Nat := 32

/-- Square brackets open outside quotes, and where the reader stands. -/
structure Brackets where
  quoting : Quoting := .outside
  depth : Nat := 0
deriving DecidableEq, Repr

/-- One more character. -/
def Brackets.step (b : Brackets) (c : Char) : Brackets where
  quoting := b.quoting.step c
  depth :=
    if b.quoting = .outside ∧ c = '[' then b.depth + 1
    else if b.quoting = .outside ∧ c = ']' then b.depth - 1
    else b.depth

/-- The brackets after a text. -/
def Brackets.after (b : Brackets) (t : Text) : Brackets := t.foldl Brackets.step b

/-- A text continued by a piece, after a space; an empty piece adds nothing. -/
def joinPiece (t piece : Text) : Text := if piece = [] then t else t ++ ' ' :: piece

/-- Whether the code of a line starts with a square bracket. -/
def opensAttribute (line : Text) : Bool := (codeOf line).head? = some '['

/-- Continue an attribute over at most `allowance` further lines, until its brackets close. The
second part of the answer is how many lines that took. -/
def gatherAttribute (brackets : Brackets) (t : Text) (allowance : Nat) (rest : List Text) :
    Option (Text × Nat) :=
  if brackets.depth = 0 then
    if isAttribute t then some (t, 0) else none
  else
    match allowance, rest with
    | n + 1, line :: others =>
      if isBlockBoundary line || isStructuredComment line then none
      else
        (gatherAttribute (brackets.after (codeOf line)) (joinPiece t (codeOf line)) n others).map
          fun (whole, extra) => (whole, extra + 1)
    | _, _ => none

/-- The attribute that opens on the first of some lines, as one line, and how many lines it takes
beyond the first. -/
def readAttribute? : List Text → Option (Text × Nat)
  | [] => none
  | line :: rest =>
    if opensAttribute line then
      gatherAttribute (({} : Brackets).after (codeOf line)) (codeOf line) maxAttributeLines rest
    else none

namespace SourceFile

/-- The attribute that opens on line `first`, as one line, and the number of its last line. -/
def attributeAt? (f : SourceFile) (first : Nat) : Option (Text × Nat) :=
  (readAttribute? (f.linesFrom first)).map fun (whole, extra) => (whole, first + extra)

/-- The nearest of the `allowance` lines above line `n` whose code starts with a bracket. -/
def openerAbove? (f : SourceFile) : Nat → Nat → Option Nat
  | allowance + 1, n + 1 =>
    match f.line? n with
    | none => none
    | some line => if opensAttribute line then some n else f.openerAbove? allowance n
  | _, _ => none

/-- The first line of the attribute of several lines that ends on line `last`. -/
def attributeEndingAt? (f : SourceFile) (last : Nat) : Option Nat := do
  let first ← f.openerAbove? maxAttributeLines last
  let (_, found) ← f.attributeAt? first
  if found = last then some first else none

end SourceFile

/-! ## Traits -/

/-- What the attributes above a procedure say about it. -/
structure Traits where
  /-- Marked as a try function. -/
  isTry : Bool := false
  obsolete : Option Obsolescence := none
  /-- The last attribute that names a category decides it. -/
  category : Option Category := none
deriving DecidableEq, Repr

/-- The category, which is `normal` unless an attribute says otherwise. -/
def Traits.categoryOrNormal (t : Traits) : Category := t.category.getD .normal

/-- The attributes that put a procedure into a category. -/
def categoryWords : List (Text × Category) :=
  [("businessevent", .eventPublisher), ("integrationevent", .eventPublisher),
    ("internalevent", .eventPublisher), ("eventsubscriber", .eventSubscriber), ("test", .test)]

/-- The traits with one more attribute taken into account. -/
def Traits.add (t : Traits) (a : Attribute) : Traits :=
  match categoryWords.lookup (lower a.name) with
  | some category => { t with category := some category }
  | none =>
    if sameWord a.name "obsolete" then
      { t with obsolete := some ⟨(firstLiteral a.arguments).getD [], .pending⟩ }
    else if sameWord a.name "tryfunction" then { t with isTry := true }
    else t

/-- The traits that some lines give, those that are no attributes passed over. -/
def Traits.of (attributeLines : List Text) : Traits :=
  (attributeLines.filterMap Attribute.read?).foldl Traits.add {}

end DocAudit
