import DocAudit.Source.Quoting

/-!
# Words

The words a declaration is made of. Letters are the ASCII letters and the two characters outside
ASCII whose case folding is one: `ſ` (U+017F, folds to `s`) and the Kelvin sign (U+212A, folds to
`k`). Each reader takes the longest word at the start of a text and returns it with what follows.

* `keyword?`: one of some given words, in any case.
* `word?`: a letter, then letters and digits.
* `name?`: an identifier, or any text in double quotes.
* `number?`: decimal digits.
-/

namespace DocAudit

/-! ## Letters -/

/-- Simple case folding, for ASCII and the two letters that fold into it. -/
def foldCase (c : Char) : Char :=
  if c = '\u017f' then 's' else if c = '\u212a' then 'k' else c.toLower

/-- A character that folds to an ASCII letter. -/
def isLetter (c : Char) : Bool := c.isAlpha || c = '\u017f' || c = '\u212a'

/-- The first character of an identifier. -/
def startsIdentifier (c : Char) : Bool := isLetter c || c = '_'

/-- A later character of an identifier. -/
def continuesIdentifier (c : Char) : Bool := startsIdentifier c || c.isDigit

/-! ## Readers -/

/-- The text after `word`, which is matched up to case folding, and the word as written. -/
def readFolded (word : Text) : Text → Option (Text × Text)
  | t =>
    match word, t with
    | [], t => some ([], t)
    | _ :: _, [] => none
    | w :: ws, c :: rest =>
      if foldCase c = w then (readFolded ws rest).map fun (seen, after) => (c :: seen, after)
      else none

/-- The first of some words that the text starts with and that blanks follow: the word as it is
listed, the word as written, and the text after the blanks. -/
def keyword? (words : List Text) (t : Text) : Option (Text × Text × Text) :=
  words.findSome? fun word =>
    match readFolded word t with
    | some (written, after) => (blankRun after).map fun rest => (word, written, rest)
    | none => none

/-- A letter followed by letters and digits. -/
def word? : Text → Option (Text × Text)
  | [] => none
  | c :: rest =>
    if isLetter c then
      let inWord := fun c => isLetter c || c.isDigit
      some (c :: rest.takeWhile inWord, rest.dropWhile inWord)
    else none

/-- Decimal digits, at least one. -/
def number? (t : Text) : Option (Text × Text) :=
  let digits := t.takeWhile Char.isDigit
  if digits.isEmpty then none else some (digits, t.dropWhile Char.isDigit)

/-- The value of decimal digits. -/
def digitsValue (digits : Text) : Nat :=
  digits.foldl (fun n c => 10 * n + (c.toNat - '0'.toNat)) 0

/-- An identifier. -/
def identifier? : Text → Option (Text × Text)
  | [] => none
  | c :: rest =>
    if startsIdentifier c then
      some (c :: rest.takeWhile continuesIdentifier, rest.dropWhile continuesIdentifier)
    else none

/-- The text of a quoted name after its opening quote, closing quote included: it ends at the
first quote that is not doubled. -/
def quotedTail : Text → Option (Text × Text)
  | [] => none
  | c :: rest =>
    if c = '"' then
      match rest with
      | '"' :: rest' => (quotedTail rest').map fun (seen, after) => ('"' :: '"' :: seen, after)
      | _ => some (['"'], rest)
    else (quotedTail rest).map fun (seen, after) => (c :: seen, after)

/-- A name as written: an identifier, or text in double quotes that is not empty. -/
def name? : Text → Option (Text × Text)
  | [] => none
  | c :: rest =>
    if c = '"' then
      match quotedTail rest with
      | some (seen, after) => if seen = ['"'] then none else some ('"' :: seen, after)
      | none => none
    else identifier? (c :: rest)

/-! ## What readers lose -/

theorem readFolded_eq {word t seen after : Text} (h : readFolded word t = some (seen, after)) :
    t = seen ++ after := by
  induction word generalizing t seen after with
  | nil => simp [readFolded] at h; simp [h]
  | cons w ws ih =>
    cases t with
    | nil => simp [readFolded] at h
    | cons c rest =>
      rw [readFolded] at h
      split at h
      · simp only [Option.map_eq_some_iff] at h
        obtain ⟨⟨s, a⟩, hs, he⟩ := h
        simp only [Prod.mk.injEq] at he
        simp [ih hs, ← he.1, ← he.2]
      · exact absurd h (by simp)

theorem identifier?_eq {t seen after : Text} (h : identifier? t = some (seen, after)) :
    t = seen ++ after := by
  cases t with
  | nil => simp [identifier?] at h
  | cons c rest =>
    simp only [identifier?] at h
    split at h
    · simp only [Option.some.injEq, Prod.mk.injEq] at h
      simp [← h.1, ← h.2]
    · simp at h

end DocAudit
