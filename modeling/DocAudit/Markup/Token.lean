import DocAudit.Markup.Reference

/-!
# Markup tokens

Markup is a sequence of tags, comments and text. Each is read on its own here; whether tags match
is decided in `DocAudit.Markup.Element`.

* `QualifiedName.read?`: a name, possibly with a namespace prefix.
* `Token.read?`: the token at the start of a text.
* `Lexeme.readAll?`: all tokens of a text, each with the number of its characters.
-/

namespace DocAudit.Markup

/-! ## Names -/

/-- A name and the namespace prefix before its colon, which is empty without one. -/
structure QualifiedName where
  space : Text
  name : Text
deriving DecidableEq, Repr

/-- A character that may occur in a qualified name. -/
def inQualifiedName (c : Char) : Bool := continuesName c || c = ':'

/-- The qualified name that a run of name characters spells: at most one colon, each part started
by a proper character, and the part after the colon not empty. -/
def QualifiedName.ofRun? (run : Text) : Option QualifiedName :=
  let (space, name) := (splitFirst (· = ':') run).getD ([], run)
  if !name.contains ':' && space.head?.all startsName && name.head?.any startsName then
    some { space, name }
  else none

/-- The longest name at the start of a text, and the text after it. -/
def QualifiedName.read? (t : Text) : Option (QualifiedName × Text) :=
  (QualifiedName.ofRun? (t.takeWhile inQualifiedName)).map (·, t.dropWhile inQualifiedName)

theorem QualifiedName.ofRun?_nil : QualifiedName.ofRun? [] = none := rfl

theorem QualifiedName.read?_length {t rest : Text} {n : QualifiedName}
    (h : QualifiedName.read? t = some (n, rest)) : rest.length < t.length := by
  simp only [QualifiedName.read?, Option.map_eq_some_iff, Prod.mk.injEq] at h
  obtain ⟨m, hm, -, rfl⟩ := h
  cases t with
  | nil => simp [QualifiedName.ofRun?_nil] at hm
  | cons c tail =>
    by_cases hc : inQualifiedName c
    · have := length_dropWhile_le inQualifiedName tail
      simp only [List.dropWhile_cons, hc, if_true, List.length_cons]
      omega
    · simp [hc, QualifiedName.ofRun?_nil] at hm

/-! ## Attributes -/

/-- An attribute of a tag, its value decoded. -/
structure TagAttribute where
  name : QualifiedName
  value : Text
deriving DecidableEq, Repr

/-- The value whose opening `quote` has been read, and the text after the closing one. -/
def readValue? (quote : Char) (t : Text) : Option (Text × Text) :=
  let inValue := fun c => c != quote && c != '<'
  match t.dropWhile inValue with
  | [] => none
  | c :: after =>
    if c = quote ∧ (t.takeWhile inValue).all isAllowed then
      (decodeValue? (t.takeWhile inValue)).map (·, after)
    else none

/-- The equals sign, with blanks around it, and the value after it. -/
def readAssignment? (t : Text) : Option (Text × Text) :=
  match skipSpace t with
  | [] => none
  | c :: afterName =>
    if c = '=' then
      match skipSpace afterName with
      | [] => none
      | quote :: rest => if quote = '"' ∨ quote = '\'' then readValue? quote rest else none
    else none

/-- An attribute, and the text after it. -/
def TagAttribute.read? (t : Text) : Option (TagAttribute × Text) := do
  let (name, afterName) ← QualifiedName.read? t
  let (value, after) ← readAssignment? afterName
  return ({ name, value }, after)

theorem length_skipSpace_le (t : Text) : (skipSpace t).length ≤ t.length :=
  length_dropWhile_le _ _

theorem readValue?_length {quote : Char} {t value after : Text}
    (h : readValue? quote t = some (value, after)) : after.length ≤ t.length := by
  simp only [readValue?] at h
  split at h
  · simp at h
  · next c rest hd =>
    split at h
    · simp only [Option.map_eq_some_iff, Prod.mk.injEq] at h
      obtain ⟨_, -, -, rfl⟩ := h
      have := length_dropWhile_le (fun c => c != quote && c != '<') t
      rw [hd] at this
      simp only [List.length_cons] at this
      omega
    · simp at h

theorem readAssignment?_length {t value after : Text}
    (h : readAssignment? t = some (value, after)) : after.length ≤ t.length := by
  have h1 := length_skipSpace_le t
  simp only [readAssignment?] at h
  split at h
  · simp at h
  · next c afterName he =>
    have h2 := length_skipSpace_le afterName
    split at h
    · split at h
      · simp at h
      · next quote rest hr =>
        split at h
        · have := readValue?_length h
          simp_all only [List.length_cons]
          omega
        · simp at h
    · simp at h

theorem TagAttribute.read?_length {t after : Text} {a : TagAttribute}
    (h : TagAttribute.read? t = some (a, after)) : after.length < t.length := by
  simp only [TagAttribute.read?, Option.bind_eq_bind, Option.bind_eq_some_iff] at h
  obtain ⟨⟨name, afterName⟩, hn, ⟨value, rest⟩, hv, he⟩ := h
  simp only [Option.pure_def, Option.some.injEq, Prod.mk.injEq] at he
  have h1 := QualifiedName.read?_length hn
  have h2 := readAssignment?_length hv
  rw [← he.2]
  simp only at h1 h2
  omega

/-- How a start tag ends. -/
inductive TagEnd
  /-- `>`: the element goes on. -/
  | opened
  /-- `/>`: the element ends with its tag. -/
  | closed
deriving DecidableEq, Repr

/-- The end of a start tag, and the text after it. -/
def TagEnd.read? : Text → Option (TagEnd × Text)
  | '>' :: rest => some (.opened, rest)
  | '/' :: '>' :: rest => some (.closed, rest)
  | _ => none

theorem TagEnd.read?_length {t rest : Text} {e : TagEnd} (h : TagEnd.read? t = some (e, rest)) :
    rest.length < t.length := by
  unfold TagEnd.read? at h
  split at h <;> simp only [Option.some.injEq, Prod.mk.injEq, reduceCtorEq] at h
  · simp [h.2]
  · simp only [h.2, List.length_cons]; omega

/-- The attributes of a start tag whose name has been read, its end, and the text after it. Each
attribute stands after at least one blank. -/
def readAttributes? (t : Text) : Option (List TagAttribute × TagEnd × Text) :=
  match TagEnd.read? (skipSpace t) with
  | some (tagEnd, rest) => some ([], tagEnd, rest)
  | none =>
    if t.head?.any isSpace then
      match _h : TagAttribute.read? (skipSpace t) with
      | some (a, after) => do
        let (others, tagEnd, rest) ← readAttributes? after
        return (a :: others, tagEnd, rest)
      | none => none
    else none
termination_by t.length
decreasing_by
  have h1 := TagAttribute.read?_length _h
  have h2 := length_skipSpace_le t
  omega

theorem readAttributes?_length {t rest : Text} {attributes : List TagAttribute} {tagEnd : TagEnd}
    (h : readAttributes? t = some (attributes, tagEnd, rest)) : rest.length < t.length := by
  fun_induction readAttributes? t generalizing attributes with
  | case1 t e r he =>
    simp only [Option.some.injEq, Prod.mk.injEq] at h
    have h1 := TagEnd.read?_length he
    have h2 := length_skipSpace_le t
    rw [← h.2.2]
    omega
  | case2 t _ _ a after ha ih =>
    simp only [Option.bind_eq_bind, Option.bind_eq_some_iff, Option.pure_def, Option.some.injEq,
      Prod.mk.injEq] at h
    obtain ⟨⟨others, e, r⟩, ho, -, rfl, rfl⟩ := h
    have h0 := ih ho
    have h1 := TagAttribute.read?_length ha
    have h2 := length_skipSpace_le t
    omega
  | case3 => simp at h
  | case4 => simp at h

/-! ## Tokens -/

/-- A piece of markup. -/
inductive Token
  | text (content : Text)
  | comment
  | startTag (name : QualifiedName) (attributes : List TagAttribute) (tagEnd : TagEnd)
  | endTag (name : QualifiedName)
deriving DecidableEq, Repr

/-- The comment whose `<!--` has been read: no two hyphens in it, and none at its end. -/
def readComment? (t : Text) : Option (Token × Text) := do
  let (content, rest) ← cutAt "-->" t
  if content.all isAllowed && !Text.has "--" content && content.getLast? != some '-' then
    some (.comment, rest)
  else none

/-- The section of literal text whose `<![CDATA[` has been read. -/
def readLiteral? (t : Text) : Option (Token × Text) := do
  let (content, rest) ← cutAt "]]>" t
  if content.all isAllowed then some (.text (readLineEnds false (plainly content)), rest) else none

/-- The end tag whose `</` has been read. -/
def readEndTag? (t : Text) : Option (Token × Text) := do
  let (name, afterName) ← QualifiedName.read? t
  match skipSpace afterName with
  | c :: rest => if c = '>' then some (.endTag name, rest) else none
  | [] => none

/-- The start tag whose `<` has been read. -/
def readStartTag? (t : Text) : Option (Token × Text) := do
  let (name, afterName) ← QualifiedName.read? t
  let (attributes, tagEnd, rest) ← readAttributes? afterName
  return (.startTag name attributes tagEnd, rest)

/-- Text up to the next `<`; the end of a literal section must not occur in it. -/
def readText? (t : Text) : Option (Token × Text) :=
  let content := t.takeWhile (· ≠ '<')
  if content.all isAllowed && !Text.has "]]>" content then
    (decodeText? content).map fun decoded => (.text decoded, t.dropWhile (· ≠ '<'))
  else none

/-- The tokens that start with `<`, by what follows it. -/
def readTag? (t : Text) : Option (Token × Text) :=
  match ("!--" : Text).isPrefixOf? t with
  | some rest => readComment? rest
  | none =>
    match ("![CDATA[" : Text).isPrefixOf? t with
    | some rest => readLiteral? rest
    | none =>
      match t with
      | '/' :: rest => readEndTag? rest
      | _ => readStartTag? t

/-- The token at the start of a text, and the text after it. -/
def Token.read? : Text → Option (Token × Text)
  | [] => none
  | c :: rest => if c = '<' then readTag? rest else readText? (c :: rest)

/-! ## Progress -/

theorem length_le_of_cutAt {mark t before after : Text} (h : cutAt mark t = some (before, after)) :
    after.length ≤ t.length := by
  rw [eq_of_cutAt h]
  simp only [List.length_append]
  omega

theorem readTag?_length {t rest : Text} {token : Token} (h : readTag? t = some (token, rest)) :
    rest.length ≤ t.length := by
  unfold readTag? at h
  split at h
  · next after ha =>
    have h1 := congrArg List.length (eq_of_isPrefixOf? ha)
    simp only [readComment?, Option.bind_eq_bind, Option.bind_eq_some_iff] at h
    obtain ⟨⟨content, r⟩, hc, he⟩ := h
    have h2 := length_le_of_cutAt hc
    split at he
    · simp only [Option.some.injEq, Prod.mk.injEq] at he
      simp only [List.length_append] at h1
      rw [← he.2]
      omega
    · simp at he
  · split at h
    · next after ha =>
      have h1 := congrArg List.length (eq_of_isPrefixOf? ha)
      simp only [readLiteral?, Option.bind_eq_bind, Option.bind_eq_some_iff] at h
      obtain ⟨⟨content, r⟩, hc, he⟩ := h
      have h2 := length_le_of_cutAt hc
      split at he
      · simp only [Option.some.injEq, Prod.mk.injEq] at he
        simp only [List.length_append] at h1
        rw [← he.2]
        omega
      · simp at he
    · split at h
      · simp only [readEndTag?, Option.bind_eq_bind, Option.bind_eq_some_iff] at h
        obtain ⟨⟨name, afterName⟩, hn, he⟩ := h
        have h1 := QualifiedName.read?_length hn
        have h2 := length_skipSpace_le afterName
        split at he
        · next c r hr =>
          simp only at hr
          split at he
          · simp only [Option.some.injEq, Prod.mk.injEq] at he
            rw [hr] at h2
            simp only [List.length_cons] at h2 ⊢
            rw [← he.2]
            omega
          · simp at he
        · simp at he
      · simp only [readStartTag?, Option.bind_eq_bind, Option.bind_eq_some_iff] at h
        obtain ⟨⟨name, afterName⟩, hn, ⟨attributes, tagEnd, r⟩, ha, he⟩ := h
        have h1 := QualifiedName.read?_length hn
        have h2 := readAttributes?_length ha
        simp only [Option.pure_def, Option.some.injEq, Prod.mk.injEq] at he
        simp only at h2
        rw [← he.2]
        omega

theorem Token.read?_length {t rest : Text} {token : Token}
    (h : Token.read? t = some (token, rest)) : rest.length < t.length := by
  cases t with
  | nil => simp [Token.read?] at h
  | cons c tail =>
    simp only [Token.read?] at h
    split at h
    · have := readTag?_length h
      simp only [List.length_cons]
      omega
    · next hc =>
      simp only [readText?] at h
      split at h
      · simp only [Option.map_eq_some_iff, Prod.mk.injEq] at h
        obtain ⟨_, -, -, rfl⟩ := h
        have := length_dropWhile_le (fun d => decide (d ≠ '<')) tail
        simp only [List.dropWhile_cons, ne_eq, hc, not_false_eq_true, decide_true, if_true,
          List.length_cons]
        simp only [ne_eq] at this
        omega
      · simp at h

/-- A token and the number of characters it takes. -/
structure Lexeme where
  token : Token
  width : Nat
deriving DecidableEq, Repr

/-- The tokens of a text in order; none if some part of it is no token. -/
def Lexeme.readAll? (t : Text) : Option (List Lexeme) :=
  if t = [] then some []
  else
    match _h : Token.read? t with
    | some (token, rest) =>
      (Lexeme.readAll? rest).map ({ token, width := t.length - rest.length } :: ·)
    | none => none
termination_by t.length
decreasing_by exact Token.read?_length _h

end DocAudit.Markup
