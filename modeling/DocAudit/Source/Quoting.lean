import DocAudit.Text.Blank

/-!
# Quoting

Double quotes enclose names and single quotes enclose literals; each kind means nothing inside
the other. Three readings of a line depend on it:

* `stripComment`: the line up to a `//` outside quotes.
* `unquote`: a name without its quotes, each doubled quote inside read as one.
* `firstLiteral`: the content of the first single-quoted literal.
-/

namespace DocAudit

/-- Where a reader stands with respect to quotes. -/
inductive Quoting
  | outside
  | double
  | single
deriving DecidableEq, Repr

/-- A quote opens or closes its own kind, and has no effect inside the other. -/
def Quoting.step : Quoting → Char → Quoting
  | .outside, c => if c = '"' then .double else if c = '\'' then .single else .outside
  | .double, c => if c = '"' then .outside else .double
  | .single, c => if c = '\'' then .outside else .single

/-- Where a reader stands after a text. -/
def Quoting.after (q : Quoting) (t : Text) : Quoting := t.foldl Quoting.step q

@[simp] theorem Quoting.after_nil (q : Quoting) : q.after [] = q := rfl

@[simp] theorem Quoting.after_cons (q : Quoting) (c : Char) (t : Text) :
    q.after (c :: t) = (q.step c).after t := rfl

@[simp] theorem Quoting.after_append (q : Quoting) (s t : Text) :
    q.after (s ++ t) = (q.after s).after t := List.foldl_append

/-! ## Line comments -/

/-- The text before a `//` outside quotes, for a reader that stands at `q`. -/
def stripCommentFrom (q : Quoting) : Text → Text
  | [] => []
  | c :: rest =>
    if q = .outside ∧ c = '/' ∧ rest.head? = some '/' then []
    else c :: stripCommentFrom (q.step c) rest

/-- The line without a `//` comment at its end. -/
def stripComment (line : Text) : Text := stripCommentFrom .outside line

/-- The code of a line: its comment and the blanks around the rest dropped. -/
def codeOf (line : Text) : Text := trim (stripComment line)

/-! ## Quoted names -/

/-- What stands between double quotes that open and close a text. -/
def quotedBody : Text → Option Text
  | '"' :: rest => if rest.getLast? = some '"' then some rest.dropLast else none
  | _ => none

/-- A trimmed name; quotes around it are removed and doubled quotes inside become single. -/
def unquote (name : Text) : Text :=
  match quotedBody (trim name) with
  | some body => collapsePairs '"' body
  | none => trim name

/-! ## Literals -/

/-- The content of a literal whose opening quote has been read: it ends at the first quote that is
not doubled, or, if there is none, at the last doubled quote. -/
def literalBody : Text → Option Text
  | [] => none
  | c :: rest =>
    if c = '\'' then
      match rest with
      | '\'' :: rest' =>
        match literalBody rest' with
        | some body => some ('\'' :: '\'' :: body)
        | none => some []
      | _ => some []
    else (literalBody rest).map (c :: ·)

/-- The content of the first literal that is closed, doubled quotes read as one. -/
def firstLiteral : Text → Option Text
  | [] => none
  | c :: rest =>
    if c = '\'' then
      match literalBody rest with
      | some body => some (collapsePairs '\'' body)
      | none => firstLiteral rest
    else firstLiteral rest

end DocAudit
