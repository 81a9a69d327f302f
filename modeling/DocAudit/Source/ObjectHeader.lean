import DocAudit.Source.TopLevel
import DocAudit.Source.Word
import DocAudit.Vocabulary

/-!
# Object headers

An object header is one line: a kind keyword, a number for most kinds, a name, and possibly a
relation to other objects. An opening brace and anything after it may follow.

    codeunit 50100 "Sales Mgt." implements "ISales Handler" {

* `ObjectHeader.read?`: the header a line holds.
* `Relation.targets`: the names in the relation, quotes removed.
-/

namespace DocAudit

/-- The relation clause of a header: its target text may list several names. -/
structure Relation where
  kind : RelationKind
  target : Text
deriving DecidableEq, Repr

/-- The names in the target text, split at top-level commas, quotes removed. -/
def Relation.targets (r : Relation) : List Text :=
  ((splitTopLevel ',' r.target).map unquote).filter (!·.isEmpty)

/-- What a header line says about its object. -/
structure ObjectHeader where
  /-- The kind keyword as written. -/
  keyword : Text
  /-- Kinds such as interfaces have no number. -/
  number : Option Nat
  /-- The name without quotes. -/
  name : Text
  relation : Option Relation
deriving DecidableEq, Repr

/-- The kind the keyword stands for. -/
def ObjectHeader.kind (h : ObjectHeader) : ObjectKind := .ofWord h.keyword

/-- What may follow a complete header: blanks, and a brace with the rest of the line. -/
def endsHeader (t : Text) : Bool :=
  match trimLeft t with
  | [] => true
  | c :: rest => c = '{' && rest.all (· ≠ '\n')

/-- The shortest text, not empty and within the line, after which a header may end. -/
def targetText? : Text → Option Text
  | [] => none
  | c :: rest =>
    if c = '\n' then none
    else if endsHeader rest then some [c]
    else (targetText? rest).map (c :: ·)

/-- The target after the blanks that follow a relation keyword. If only blanks follow, the last of
them serve as an empty target, provided one blank is left to end the keyword. -/
def target? (afterKeyword : Text) : Option Text :=
  match trimLeft afterKeyword with
  | [] => if (afterKeyword.drop 1).any (· ≠ '\n') then some [] else none
  | rest => (targetText? rest).map trim

/-- The words that introduce a relation. -/
def relationWords : List (Text × RelationKind) :=
  [("extends", .extending), ("implements", .implementing)]

/-- The relation clause at the start of a text, to the end of the header. A keyword counts as
`extends` only in its ASCII spelling. -/
def relation? (t : Text) : Option Relation :=
  relationWords.findSome? fun (word, _) =>
    match readFolded word t with
    | some (written, after) =>
      if after.head?.any isBlank then
        (target? after).map fun target =>
          { kind := (relationWords.lookup (lower written)).getD .implementing, target }
      else none
    | none => none

/-- What follows the name of a header: nothing, or a relation. -/
def headerTail? (t : Text) : Option (Option Relation) :=
  if endsHeader t then some none
  else
    match blankRun t with
    | some rest => (relation? rest).map some
    | none => none

/-- The largest number an object may have. -/
def maxObjectNumber : Nat := 4294967295

/-- The header after its keyword: a number first, if there is one, then the name. A number that is
too large makes the whole line no header. -/
def headerBody? (keyword t : Text) : Option ObjectHeader :=
  let named (number : Option Nat) (t : Text) : Option ObjectHeader := do
    let (name, rest) ← name? t
    let relation ← headerTail? rest
    return { keyword, number, name := unquote name, relation }
  match number? t with
  | some (digits, rest) => do
    let header ← named (some (digitsValue digits)) (← blankRun rest)
    if digitsValue digits ≤ maxObjectNumber then some header else none
  | none => named none t

/-- Whether a keyword starts a procedure or trigger. -/
def isProcedureWord (word : Text) : Bool := sameWord word "procedure" || sameWord word "trigger"

/-- The object header on a line; none if the line is something else. -/
def ObjectHeader.read? (line : Text) : Option ObjectHeader := do
  let (keyword, rest) ← word? (trimLeft (stripComment line))
  let header ← headerBody? keyword (← blankRun rest)
  if isProcedureWord keyword then none else some header

end DocAudit
