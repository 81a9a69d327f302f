import DocAudit.Toml.Scalar

/-!
# Reading TOML

A document is read line by line into statements, which build its tree. Readers return what they
read with the text after it. The number that the recursive ones carry bounds their depth by the
length of the document, and is never used up.

* `readValue?`: a value.
* `readStatement?`: a line that says something.
* `readDocument?`: a whole document.
-/

namespace DocAudit.Toml

/-- Without the blanks at the start. -/
def skipBlanks (t : Text) : Text := t.dropWhile isBlank

/-! ## Comments and line ends -/

/-- The text after a comment, if one starts here and holds nothing it may not. -/
def skipComment? (t : Text) : Option Text :=
  if t.head? = some '#' then
    let after := t.dropWhile isPlain
    if after = [] ∨ 0 < lineEndWidth after then some after else none
  else some t

/-- The text after the rest of a line that holds nothing more than a comment. -/
def endLine? (t : Text) : Option Text := do
  let after ← skipComment? (skipBlanks t)
  if after = [] then some []
  else if 0 < lineEndWidth after then some (dropLineEnd after)
  else none

/-- The text after blanks, comments and line ends, at most `bound` of them. -/
def skipSpace? : Nat → Text → Option Text
  | 0, t => some t
  | bound + 1, t => do
    let after ← skipComment? (skipBlanks t)
    if 0 < lineEndWidth after then skipSpace? bound (dropLineEnd after)
    else if (skipBlanks t).head? = some '#' then none
    else some after

/-! ## Keys -/

/-- A character of a bare key. -/
def inBareKey (c : Char) : Bool := c.isAlphanum || c = '_' || c = '-'

/-- One part of a key, with the blanks around it. -/
def readKeyPart? (t : Text) : Option (Text × Text) :=
  let t := skipBlanks t
  (match t with
    | '"' :: rest => readBasic? rest
    | '\'' :: rest => readLiteral? rest
    | _ =>
      if (t.takeWhile inBareKey).isEmpty then none
      else some (t.takeWhile inBareKey, t.dropWhile inBareKey)).map
    fun (key, after) => (key, skipBlanks after)

/-- A key of at most `bound` parts joined by points. -/
def readKey? : Nat → Text → Option (List Text × Text)
  | 0, _ => none
  | bound + 1, t => do
    let (part, after) ← readKeyPart? t
    match after with
    | '.' :: rest => do
      let (parts, left) ← readKey? bound rest
      return (part :: parts, left)
    | _ => return ([part], after)

/-- A key and the equals sign after it. -/
def readKeyBeforeValue? (bound : Nat) (t : Text) : Option (List Text × Text) := do
  let (path, after) ← readKey? bound t
  match after with
  | '=' :: rest => return (path, skipBlanks rest)
  | _ => none

/-! ## Values -/

/-- A character of a value that is written bare. -/
def inBareValue (c : Char) : Bool := c.isAlphanum || c = '_' || c = '+' || c = '-' || c = '.' || c = ':'

/-- A value written bare. -/
def readBare? (t : Text) : Option (Node × Text) :=
  (bareValue? (t.takeWhile inBareValue)).map (·, t.dropWhile inBareValue)

mutual

/-- A value. -/
def readValue? : Nat → Text → Option (Node × Text)
  | 0, _ => none
  | bound + 1, t =>
    match t with
    | '"' :: _ => (readString? t).map fun (s, after) => (.text s, after)
    | '\'' :: _ => (readString? t).map fun (s, after) => (.text s, after)
    | '[' :: rest => (readItems? bound rest).map fun (items, after) => (.array items, after)
    | '{' :: rest => do
      match skipBlanks rest with
      | '}' :: after => return (.table .inlined [], after)
      | members => do
        let (entries, after) ← readMembers? bound [] members
        return (.table .inlined entries, after)
    | _ => readBare? t

/-- The items of an array from some point on, to the bracket that closes it. -/
def readItems? : Nat → Text → Option (List Node × Text)
  | 0, _ => none
  | bound + 1, t => do
    match ← skipSpace? bound t with
    | ']' :: after => return ([], after)
    | item => do
      let (value, after) ← readValue? bound item
      match ← skipSpace? bound after with
      | ']' :: left => return ([value], left)
      | ',' :: rest => do
        let (items, left) ← readItems? bound rest
        return (value :: items, left)
      | _ => none

/-- The members of a table between braces from some point on, added to those before. -/
def readMembers? : Nat → Entries → Text → Option (Entries × Text)
  | 0, _, _ => none
  | bound + 1, entries, t => do
    let (path, rest) ← readKeyBeforeValue? bound t
    let (value, after) ← readValue? bound rest
    let entries ← insertDotted? value path entries
    match skipBlanks after with
    | '}' :: left => return (entries, left)
    | ',' :: more => readMembers? bound entries more
    | _ => none

end

/-! ## Documents -/

/-- A line that says something, to its end. -/
def readStatement? (bound : Nat) (t : Text) : Option (Statement × Text) :=
  match t with
  | '[' :: '[' :: rest => do
    let (path, after) ← readKey? bound rest
    match after with
    | ']' :: ']' :: left => return (.nextHeader path, ← endLine? left)
    | _ => none
  | '[' :: rest => do
    let (path, after) ← readKey? bound rest
    match after with
    | ']' :: left => return (.header path, ← endLine? left)
    | _ => none
  | _ => do
    let (path, rest) ← readKeyBeforeValue? bound t
    let (value, after) ← readValue? bound rest
    return (.pair path value, ← endLine? after)

/-- The statements of a document of at most `bound` lines. -/
def readStatements? : Nat → Text → Option (List Statement)
  | 0, t => if t = [] then some [] else none
  | bound + 1, t => do
    match skipBlanks t with
    | [] => return []
    | c :: rest =>
      if c = '#' ∨ 0 < lineEndWidth (c :: rest) then readStatements? bound (← endLine? (c :: rest))
      else
        let (statement, after) ← readStatement? (2 * rest.length + 2) (c :: rest)
        return statement :: (← readStatements? bound after)

/-- The mark some editors write before a text. -/
def byteOrderMark : Char := '\ufeff'

/-- The tree of a document; none if it is no TOML. -/
def readDocument? (t : Text) : Option Entries := do
  let t := if t.head? = some byteOrderMark then t.drop 1 else t
  buildTree? (← readStatements? (t.length + 1) t)

end DocAudit.Toml
