import DocAudit.Source.Quoting

/-!
# Top level

A character is at top level when it stands outside quotes, parentheses and square brackets.

* `splitTopLevel`: the pieces between separators at top level.
* `closeParenthesis`: the text inside an open parenthesis and the text after it closes.
* `Braces`: the braces outside quotes and comments, counted line by line.
-/

namespace DocAudit

/-! ## Pieces -/

/-- Parentheses and square brackets open at a point, counted together; a closing one that
nothing opened is passed over. -/
def bracketDepth (depth : Nat) (c : Char) : Nat :=
  if c = '(' ∨ c = '[' then depth + 1
  else if c = ')' ∨ c = ']' then depth - 1
  else depth

/-- Quotes, parentheses and brackets, which never separate pieces. -/
def isDelimiter (c : Char) : Bool :=
  c = '"' || c = '\'' || c = '(' || c = ')' || c = '[' || c = ']'

/-- The pieces between separators, for a reader at `q` with `depth` brackets open. There is always
a first piece, possibly empty. -/
def pieces (separator : Char) (q : Quoting) (depth : Nat) : Text → List Text
  | [] => [[]]
  | c :: rest =>
    if q = .outside ∧ depth = 0 ∧ c = separator ∧ isDelimiter c = false then
      [] :: pieces separator q depth rest
    else
      extendFirst c <|
        pieces separator (q.step c) (if q = .outside then bracketDepth depth c else depth) rest

/-- The pieces between top-level separators; none when every piece is blank. -/
def splitTopLevel (separator : Char) (t : Text) : List Text :=
  let all := pieces separator .outside 0 t
  if all.all allBlank then [] else all

theorem pieces_ne_nil (separator : Char) (q : Quoting) (depth : Nat) (t : Text) :
    pieces separator q depth t ≠ [] := by
  cases t with
  | nil => simp [pieces]
  | cons c rest =>
    simp only [pieces]
    split
    · simp
    · unfold extendFirst; split <;> simp

/-! ## Parentheses -/

/-- The text up to the parenthesis that closes the last of `depth + 1` open ones, and the text
after it. Parentheses in quotes do not count. -/
def closeParenthesis (q : Quoting) (depth : Nat) : Text → Option (Text × Text)
  | [] => none
  | c :: rest =>
    if q = .outside ∧ c = ')' then
      match depth with
      | 0 => some ([], rest)
      | n + 1 => (closeParenthesis q n rest).map fun (inside, after) => (c :: inside, after)
    else
      (closeParenthesis (q.step c) (if q = .outside ∧ c = '(' then depth + 1 else depth) rest).map
        fun (inside, after) => (c :: inside, after)

/-- What closing a parenthesis cuts out is the text itself, with the parenthesis put back. -/
theorem closeParenthesis_eq {q : Quoting} {depth : Nat} {t inside after : Text}
    (h : closeParenthesis q depth t = some (inside, after)) : t = inside ++ ')' :: after := by
  induction t generalizing q depth inside after with
  | nil => simp [closeParenthesis] at h
  | cons c rest ih =>
    simp only [closeParenthesis] at h
    split at h
    · next hc =>
      cases depth with
      | zero => simp only [Option.some.injEq, Prod.mk.injEq] at h; simp [← h.1, ← h.2, hc.2]
      | succ n =>
        simp only [Option.map_eq_some_iff] at h
        obtain ⟨⟨i, a⟩, hi, he⟩ := h
        simp only [Prod.mk.injEq] at he
        simp [ih hi, ← he.1, ← he.2]
    · simp only [Option.map_eq_some_iff] at h
      obtain ⟨⟨i, a⟩, hi, he⟩ := h
      simp only [Prod.mk.injEq] at he
      simp [ih hi, ← he.1, ← he.2]

/-! ## Braces -/

/-- The braces met so far: how many are open, and whether any was opened. -/
structure Braces where
  depth : Nat := 0
  opened : Bool := false
deriving DecidableEq, Repr

/-- One character outside quotes. -/
def Braces.count (b : Braces) (c : Char) : Braces :=
  if c = '{' then { depth := b.depth + 1, opened := true }
  else if c = '}' then { b with depth := b.depth - 1 }
  else b

/-- The braces of a text that stand outside quotes, for a reader at `q`. -/
def Braces.countFrom (b : Braces) (q : Quoting) : Text → Braces
  | [] => b
  | c :: rest => (if q = .outside then b.count c else b).countFrom (q.step c) rest

/-- The braces of a line outside quotes and its comment. -/
def Braces.countLine (b : Braces) (line : Text) : Braces :=
  b.countFrom .outside (stripComment line)

/-- Every brace that was opened is closed again. -/
def Braces.closed (b : Braces) : Bool := b.opened && b.depth == 0

end DocAudit
