import DocAudit.Toml.Tree

/-!
# TOML scalars

* `readBasic?`, `readLiteral?`: strings in double and single quotes, on one line.
* `readLongBasic?`, `readLongLiteral?`: strings in triple quotes.
* `integer?`: integers, in four bases.

Each reader starts after the opening quotes and returns the string with the text after it.
-/

namespace DocAudit.Toml

/-- Blanks within a line. -/
def isBlank (c : Char) : Bool := c = ' ' || c = '\t'

/-- Characters that strings and comments may hold as they are, apart from line ends. -/
def isPlain (c : Char) : Bool := c = '\t' || (0x20 ≤ c.toNat && c.toNat != 0x7F)

/-! ## Escapes -/

/-- The characters that have an escape of their own. -/
def escapeTable : List (Char × Char) :=
  [('b', '\x08'), ('t', '\t'), ('n', '\n'), ('f', '\x0c'), ('r', '\r'), ('"', '"'), ('\\', '\\')]

/-- The value of a digit in a base up to sixteen. -/
def digit? (base : Nat) (c : Char) : Option Nat :=
  let value :=
    if c.isDigit then c.toNat - '0'.toNat
    else if 'a' ≤ c ∧ c ≤ 'f' then c.toNat - 'a'.toNat + 10
    else if 'A' ≤ c ∧ c ≤ 'F' then c.toNat - 'A'.toNat + 10
    else base
  if value < base then some value else none

/-- The value of some digits, the first counting most. -/
def digitsValue? (base : Nat) (digits : Text) : Option Nat :=
  digits.foldlM (fun n c => (digit? base c).map (base * n + ·)) 0

/-- The character with a hexadecimal number. -/
def codePoint? (digits : Text) : Option Char := do
  let code ← digitsValue? 16 digits
  if code.isValidChar then some (Char.ofNat code) else none

/-- How many digits follow the letter of an escape by number. -/
def escapeWidth (c : Char) : Nat := if c = 'u' then 4 else if c = 'U' then 8 else 0

/-- The character that an escape after its backslash stands for, and the text after it. -/
def readEscape? : Text → Option (Char × Text)
  | [] => none
  | c :: rest =>
    if escapeWidth c = 0 then (escapeTable.lookup c).map (·, rest)
    else if (rest.take (escapeWidth c)).length = escapeWidth c then
      (codePoint? (rest.take (escapeWidth c))).map (·, rest.drop (escapeWidth c))
    else none

theorem readEscape?_length {t rest : Text} {c : Char} (h : readEscape? t = some (c, rest)) :
    rest.length < t.length := by
  cases t with
  | nil => simp [readEscape?] at h
  | cons d tail =>
    simp only [readEscape?] at h
    split at h
    · simp only [Option.map_eq_some_iff, Prod.mk.injEq] at h
      obtain ⟨_, -, -, rfl⟩ := h
      simp
    · split at h
      · simp only [Option.map_eq_some_iff, Prod.mk.injEq] at h
        obtain ⟨_, -, -, rfl⟩ := h
        simp only [List.length_drop, List.length_cons]
        omega
      · simp at h

/-! ## Strings on one line -/

/-- A string in double quotes. -/
def readBasic? (t : Text) : Option (Text × Text) :=
  match t with
  | [] => none
  | c :: rest =>
    if c = '"' then some ([], rest)
    else if c = '\\' then
      match _h : readEscape? rest with
      | some (e, after) => (readBasic? after).map fun (s, left) => (e :: s, left)
      | none => none
    else if isPlain c then (readBasic? rest).map fun (s, left) => (c :: s, left)
    else none
termination_by t.length
decreasing_by
  · have := readEscape?_length _h
    simp only [List.length_cons]; omega
  · simp

/-- A string in single quotes, which knows no escapes. -/
def readLiteral? : Text → Option (Text × Text)
  | [] => none
  | c :: rest =>
    if c = '\'' then some ([], rest)
    else if isPlain c then (readLiteral? rest).map fun (s, left) => (c :: s, left)
    else none

/-! ## Strings on several lines -/

/-- The number of line-end characters at the start of a text. -/
def lineEndWidth : Text → Nat
  | '\n' :: _ => 1
  | '\r' :: '\n' :: _ => 2
  | _ => 0

/-- The end of a string in triple quotes: up to two more quotes belong to it. -/
def closeLong? (quote : Char) (t : Text) : Option (Text × Text) :=
  let quotes := min 5 (t.takeWhile (· = quote)).length
  if 3 ≤ quotes then some (List.replicate (quotes - 3) quote, t.drop quotes) else none

/-- A string in triple double quotes. After a backslash at the end of a line, blanks and line ends
are passed over: `skipping` says so. -/
def readLongBasic? (skipping : Bool) (t : Text) : Option (Text × Text) :=
  match t with
  | [] => none
  | c :: rest =>
    let width := lineEndWidth (c :: rest)
    if skipping && isBlank c then readLongBasic? true rest
    else if 0 < width then
      (readLongBasic? skipping (rest.drop (width - 1))).map fun (s, left) =>
        (if skipping then s else '\n' :: s, left)
    else
      match closeLong? '"' (c :: rest) with
      | some closed => some closed
      | none =>
        if c = '\\' then
          if 0 < lineEndWidth (rest.dropWhile isBlank) then readLongBasic? true rest
          else
            match _h : readEscape? rest with
            | some (e, after) => (readLongBasic? false after).map fun (s, left) => (e :: s, left)
            | none => none
        else if isPlain c then (readLongBasic? false rest).map fun (s, left) => (c :: s, left)
        else none
termination_by t.length
decreasing_by
  · simp
  · simp only [List.length_drop, List.length_cons]; omega
  · simp
  · have := readEscape?_length _h
    simp only [List.length_cons]; omega
  · simp

/-- A string in triple single quotes. -/
def readLongLiteral? (t : Text) : Option (Text × Text) :=
  match t with
  | [] => none
  | c :: rest =>
    let width := lineEndWidth (c :: rest)
    if 0 < width then
      (readLongLiteral? (rest.drop (width - 1))).map fun (s, left) => ('\n' :: s, left)
    else
      match closeLong? '\'' (c :: rest) with
      | some closed => some closed
      | none =>
        if isPlain c then (readLongLiteral? rest).map fun (s, left) => (c :: s, left) else none
termination_by t.length
decreasing_by
  · simp only [List.length_drop, List.length_cons]; omega
  · simp

/-- A line end directly after opening quotes does not belong to the string. -/
def dropLineEnd (t : Text) : Text := t.drop (lineEndWidth t)

/-- A string of any kind, from its opening quotes on. -/
def readString? : Text → Option (Text × Text)
  | '"' :: '"' :: '"' :: rest => readLongBasic? false (dropLineEnd rest)
  | '\'' :: '\'' :: '\'' :: rest => readLongLiteral? (dropLineEnd rest)
  | '"' :: rest => readBasic? rest
  | '\'' :: rest => readLiteral? rest
  | _ => none

/-! ## Integers and booleans -/

/-- Digits with single underscores between them, in groups. -/
def grouped? (base : Nat) (t : Text) : Option Nat :=
  let groups := splitAll (· = '_') t
  if groups.any List.isEmpty then none else digitsValue? base groups.flatten

/-- A decimal number; only zero itself starts with a zero. -/
def decimal? (t : Text) : Option Nat :=
  if t.head? = some '0' ∧ t ≠ ['0'] then none else grouped? 10 t

/-- The least number of 64 bits with sign. -/
def minInteger : Int := -9223372036854775808

/-- The largest number of 64 bits with sign. -/
def maxInteger : Int := 9223372036854775807

/-- An integer, in the range of 64 bits with sign. Only decimal ones may have a sign. -/
def integer? (t : Text) : Option Int := do
  let n ← match t with
    | '+' :: rest => (decimal? rest).map Int.ofNat
    | '-' :: rest => (decimal? rest).map fun n => -Int.ofNat n
    | '0' :: 'x' :: rest => (grouped? 16 rest).map Int.ofNat
    | '0' :: 'o' :: rest => (grouped? 8 rest).map Int.ofNat
    | '0' :: 'b' :: rest => (grouped? 2 rest).map Int.ofNat
    | _ => (decimal? t).map Int.ofNat
  if minInteger ≤ n ∧ n ≤ maxInteger then some n else none

/-- The value that a bare word stands for. -/
def bareValue? (word : Text) : Option Node :=
  if word = ("true" : Text) then some (.boolean true)
  else if word = ("false" : Text) then some (.boolean false)
  else (integer? word).map .integer

end DocAudit.Toml
