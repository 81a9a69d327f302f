import DocAudit.Markup.Character

/-!
# References and line ends

Markup writes some characters as references, by name (`&amp;`) or by number (`&#38;`, `&#x26;`).
A line end written as a carriage return, with or without a line feed, reads as a line feed; a
character written as a reference reads as itself.

* `Reference.read?`, `Reference.char?`: a reference and the character it stands for.
* `decodeText?`: text between tags.
* `decodeValue?`: the value of an attribute.
-/

namespace DocAudit.Markup

/-- A reference as written. -/
inductive Reference
  | named (c : Char)
  | number (code : Nat)
deriving DecidableEq, Repr

/-- The characters that have names, each name with the semicolon that ends it. -/
def characterNames : List (Text × Char) :=
  [("amp;", '&'), ("lt;", '<'), ("gt;", '>'), ("quot;", '"'), ("apos;", '\'')]

/-- The value of a hexadecimal digit. -/
def hexDigit? (c : Char) : Option Nat :=
  if c.isDigit then some (c.toNat - '0'.toNat)
  else if 'a' ≤ c ∧ c ≤ 'f' then some (c.toNat - 'a'.toNat + 10)
  else if 'A' ≤ c ∧ c ≤ 'F' then some (c.toNat - 'A'.toNat + 10)
  else none

/-- The value of a decimal digit. -/
def decimalDigit? (c : Char) : Option Nat :=
  if c.isDigit then some (c.toNat - '0'.toNat) else none

/-- Digits up to a semicolon, continuing a number already read, and the text after it. -/
def readNumber? (base : Nat) (digit? : Char → Option Nat) (value : Nat) : Text → Option (Nat × Text)
  | [] => none
  | c :: rest =>
    if c = ';' then some (value, rest)
    else
      match digit? c with
      | some d => readNumber? base digit? (base * value + d) rest
      | none => none

/-- A number with at least one digit, and the text after its semicolon. -/
def numberReference? (base : Nat) (digit? : Char → Option Nat) : Text → Option (Reference × Text)
  | [] => none
  | c :: rest => do
    let (code, after) ← readNumber? base digit? (← digit? c) rest
    return (.number code, after)

/-- The reference whose ampersand has been read, and the text after it. -/
def Reference.read? : Text → Option (Reference × Text)
  | '#' :: 'x' :: rest => numberReference? 16 hexDigit? rest
  | '#' :: rest => numberReference? 10 decimalDigit? rest
  | t => characterNames.findSome? fun (name, c) => (name.isPrefixOf? t).map (Reference.named c, ·)

/-- The largest number a reference may hold. -/
def maxCode : Nat := 0xFFFFFFFF

/-- What stands for a number that is no character. -/
def replacement : Char := '\ufffd'

/-- The character of a reference; none if its number is too large or its character is not allowed
in markup. -/
def Reference.char? : Reference → Option Char
  | .named c => some c
  | .number code =>
    if code ≤ maxCode then
      let c := if code.isValidChar then Char.ofNat code else replacement
      if isAllowed c then some c else none
    else none

/-! ## Progress -/

theorem readNumber?_length {base : Nat} {digit? : Char → Option Nat} {value : Nat} {t rest : Text}
    {code : Nat} (h : readNumber? base digit? value t = some (code, rest)) :
    rest.length < t.length := by
  induction t generalizing value with
  | nil => simp [readNumber?] at h
  | cons c tail ih =>
    simp only [readNumber?] at h
    split at h
    · simp only [Option.some.injEq, Prod.mk.injEq] at h
      simp [h.2]
    · split at h
      · exact Nat.lt_succ_of_lt (ih h)
      · simp at h

theorem numberReference?_length {base : Nat} {digit? : Char → Option Nat} {t rest : Text}
    {r : Reference} (h : numberReference? base digit? t = some (r, rest)) :
    rest.length < t.length := by
  cases t with
  | nil => simp [numberReference?] at h
  | cons c tail =>
    simp only [numberReference?, Option.bind_eq_bind, Option.bind_eq_some_iff] at h
    obtain ⟨d, -, ⟨code, after⟩, hr, he⟩ := h
    simp only [Option.pure_def, Option.some.injEq, Prod.mk.injEq] at he
    have := readNumber?_length hr
    simp only [List.length_cons, ← he.2]
    omega

theorem Reference.read?_length {t rest : Text} {r : Reference}
    (h : Reference.read? t = some (r, rest)) : rest.length ≤ t.length := by
  unfold Reference.read? at h
  split at h
  · have := numberReference?_length h
    simp only [List.length_cons]; omega
  · have := numberReference?_length h
    simp only [List.length_cons]; omega
  · obtain ⟨⟨name, c⟩, -, hn⟩ := List.exists_of_findSome?_eq_some h
    simp only [Option.map_eq_some_iff, Prod.mk.injEq] at hn
    obtain ⟨after, hp, -, rfl⟩ := hn
    simp [eq_of_isPrefixOf? hp]

/-! ## Decoding -/

/-- A character of decoded text, and whether it was written as itself or as a reference. -/
inductive Written
  | plain (c : Char)
  | reference (c : Char)
deriving DecidableEq, Repr

/-- The characters of a text, references resolved; none if one of them cannot be. -/
def written? (t : Text) : Option (List Written) :=
  match t with
  | [] => some []
  | c :: rest =>
    if c = '&' then
      match _h : Reference.read? rest with
      | some (r, after) => do
        let c ← r.char?
        return .reference c :: (← written? after)
      | none => none
    else (written? rest).map (.plain c :: ·)
termination_by t.length
decreasing_by
  · have := Reference.read?_length _h
    simp only [List.length_cons]; omega
  · simp

/-- The characters of a text, each as itself. -/
def plainly (t : Text) : List Written := t.map .plain

/-- Line ends read as line feeds. A carriage return written plainly ends a line together with a
line feed written plainly after it. It stays a carriage return directly before a reference, and at
the end of the text if a reference stands directly before it: `afterReference` says so. -/
def readLineEnds (afterReference : Bool) : List Written → Text
  | [] => []
  | .reference c :: rest => c :: readLineEnds true rest
  | .plain c :: rest =>
    if c = '\r' then
      match rest with
      | [] => if afterReference then ['\r'] else ['\n']
      | .reference _ :: _ => '\r' :: readLineEnds false rest
      | .plain d :: _ =>
        if d = '\n' then readLineEnds false rest else '\n' :: readLineEnds false rest
    else c :: readLineEnds false rest

/-- The text that stands between tags. -/
def decodeText? (t : Text) : Option Text := (written? t).map (readLineEnds false)

/-- Line ends and tabs in the value of an attribute read as spaces, unless they are references. -/
def readSpaces : List Written → Text
  | [] => []
  | .reference c :: rest => c :: readSpaces rest
  | .plain c :: rest =>
    if c = '\r' ∧ rest.head? = some (.plain '\n') then readSpaces rest
    else (if isSpace c then ' ' else c) :: readSpaces rest

/-- The value of an attribute. -/
def decodeValue? (t : Text) : Option Text := (written? t).map readSpaces

end DocAudit.Markup
