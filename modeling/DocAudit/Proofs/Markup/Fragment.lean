import DocAudit.Documentation.Escape
import DocAudit.Markup.Element
import DocAudit.Proofs.Markup.Escape
import DocAudit.Proofs.Markup.Locality
import DocAudit.Proofs.Text

/-!
# Fragments read back

A fragment is an element as documentation is made of: it holds text and no other element, and at
most an attribute names it. Fragments on lines of their own are read back one by one.

* `Fragment`, `Fragment.markup`: a fragment and how it is written.
* `Fragment.read?_opening`, `Markup.read?_escapeMarkup`, `Fragment.read?_closing`: its three tokens.
* `elements?_joinLines`: the elements of some lines with a fragment on each.
-/

namespace DocAudit

open Markup

/-- An element that holds text and no other element, with at most a name. -/
structure Fragment where
  tag : Text
  known : tag ∈ documentationTags
  name : Option Text
  inline : ∀ n, name = some n → Inline n
  text : Text
  ne_nil : text ≠ []
  allowed : ∀ c ∈ text, isAllowed c = true ∧ c ≠ '\r'

namespace Fragment

/-- The name of the attribute that names a fragment. -/
def nameWord : Text := "name"

/-- The attribute that holds the name, as written. -/
def writtenName (e : Fragment) : Text :=
  match e.name with
  | some n => " name=\"" ++ escapeMarkup n ++ "\""
  | none => []

/-- The start tag. -/
def opening (e : Fragment) : Text := '<' :: (e.tag ++ e.writtenName ++ ">")

/-- The end tag. -/
def closing (e : Fragment) : Text := "</" ++ e.tag ++ ">"

/-- The fragment as written. -/
def markup (e : Fragment) : Text := e.opening ++ escapeMarkup e.text ++ e.closing

theorem opening_append (e : Fragment) (rest : Text) :
    e.opening ++ rest = '<' :: (e.tag ++ (e.writtenName ++ '>' :: rest)) := by
  simp only [opening, List.cons_append, List.append_assoc]
  rfl

theorem closing_append (e : Fragment) (rest : Text) :
    e.closing ++ rest = '<' :: '/' :: (e.tag ++ '>' :: rest) := by
  simp only [closing, List.append_assoc]
  rfl

theorem markup_append (e : Fragment) (rest : Text) :
    e.markup ++ rest = e.opening ++ (escapeMarkup e.text ++ (e.closing ++ rest)) := by
  simp only [markup, List.append_assoc]

/-- A name as written: an attribute after a space. -/
theorem writtenName_append_of_some {e : Fragment} {n : Text} (h : e.name = some n) (rest : Text) :
    e.writtenName ++ rest = ' ' :: (nameWord ++ '=' :: '"' :: (escapeMarkup n ++ '"' :: rest)) := by
  rw [writtenName, h]
  simp only
  simp only [List.append_assoc]
  rfl

/-- The attributes of the element. -/
def attributes (e : Fragment) : List TagAttribute :=
  (e.name.map fun n => { name := { space := [], name := nameWord }, value := n }).toList

/-- The element, when `position` characters precede it. -/
def element (e : Fragment) (position : Nat) : Element where
  name := e.tag
  attributes := e.attributes
  text := e.text
  start := position
  stop := position + e.markup.length

end Fragment

/-! ## Names -/

theorem isLower_of_mem_documentationTags :
    ∀ tag ∈ documentationTags, tag ≠ [] ∧ ∀ c ∈ tag, c.isLower = true := by decide

namespace Markup

theorem startsName_of_isLower {c : Char} (h : c.isLower = true) : startsName c = true := by
  have halpha : c.isAlpha = true := by
    show (c.isUpper || c.isLower) = true
    rw [h, Bool.or_true]
  rw [startsName, halpha]
  rfl

theorem inQualifiedName_of_isLower {c : Char} (h : c.isLower = true) :
    inQualifiedName c = true := by
  rw [inQualifiedName, continuesName, startsName_of_isLower h]
  rfl

theorem ne_of_isLower {c d : Char} (h : c.isLower = true) (hd : d.isLower = false) : c ≠ d := by
  rintro rfl
  rw [h] at hd
  cases hd

/-- A word in lower case is a name without a prefix. -/
theorem QualifiedName.ofRun?_word {word : Text} (hne : word ≠ [])
    (hw : ∀ c ∈ word, c.isLower = true) :
    QualifiedName.ofRun? word = some { space := [], name := word } := by
  have hsplit : ∀ t : Text, (∀ c ∈ t, c.isLower = true) → splitFirst (· = ':') t = none := by
    intro t ht
    induction t with
    | nil => rfl
    | cons c rest ih =>
      have hc : c ≠ ':' := ne_of_isLower (ht c List.mem_cons_self) rfl
      rw [splitFirst, if_neg (by rw [decide_eq_true_iff]; exact hc),
        ih fun d hd => ht d (List.mem_cons_of_mem c hd)]
      rfl
  have hcolon : word.contains ':' = false := by
    rw [List.contains_eq_mem, decide_eq_false_iff_not]
    intro h
    exact ne_of_isLower (hw _ h) rfl rfl
  rw [ofRun?, hsplit word hw]
  simp only [Option.getD_none]
  rw [hcolon, if_pos]
  cases word with
  | nil => exact absurd rfl hne
  | cons c rest =>
    rw [List.head?_cons, Option.any_some, startsName_of_isLower (hw c List.mem_cons_self)]
    rfl

theorem QualifiedName.read?_word {word rest : Text} (hne : word ≠ [])
    (hw : ∀ c ∈ word, c.isLower = true) {c : Char} (hc : inQualifiedName c = false) :
    QualifiedName.read? (word ++ c :: rest) = some ({ space := [], name := word }, c :: rest) := by
  have hin : ∀ d ∈ word, inQualifiedName d = true := fun d hd =>
    inQualifiedName_of_isLower (hw d hd)
  obtain ⟨htake, hdrop⟩ := takeWhile_append_stop (r := c :: rest) hin hc
  rw [read?, htake, hdrop, ofRun?_word hne hw]
  rfl

/-! ## Attributes -/

theorem readValue?_escapeMarkup {n : Text} (hn : Inline n) (rest : Text) :
    readValue? '"' (escapeMarkup n ++ '"' :: rest) = some (n, rest) := by
  obtain ⟨hlt, -, hquote⟩ := not_mem_escapeMarkup n
  have hin : ∀ c ∈ escapeMarkup n, (c != '"' && c != '<') = true := by
    intro c hc
    simp only [Bool.and_eq_true, bne_iff_ne]
    exact ⟨fun h => hquote (h ▸ hc), fun h => hlt (h ▸ hc)⟩
  have hallowed : (escapeMarkup n).all isAllowed = true :=
    List.all_eq_true.2 fun c hc => (hn.escapeMarkup c hc).1
  obtain ⟨htake, hdrop⟩ := takeWhile_append_stop (r := '"' :: rest) hin rfl
  rw [readValue?, htake, hdrop, hallowed]
  simp only [and_self, if_true]
  rw [decodeValue?_escapeMarkup hn]
  rfl

end Markup

namespace Fragment

theorem tag_word (e : Fragment) : e.tag ≠ [] ∧ ∀ c ∈ e.tag, c.isLower = true :=
  isLower_of_mem_documentationTags e.tag e.known

theorem read?_nameAttribute {n : Text} (hn : Inline n) (rest : Text) :
    TagAttribute.read? (nameWord ++ '=' :: '"' :: (escapeMarkup n ++ '"' :: rest)) =
      some ({ name := { space := [], name := nameWord }, value := n }, rest) := by
  have hassignment : readAssignment? ('=' :: '"' :: (escapeMarkup n ++ '"' :: rest)) =
      readValue? '"' (escapeMarkup n ++ '"' :: rest) := rfl
  rw [TagAttribute.read?, QualifiedName.read?_word (by decide) (by decide) (by decide)]
  simp only [Option.bind_eq_bind, Option.bind_some]
  rw [hassignment, readValue?_escapeMarkup hn]
  rfl

/-- The name is read from its attribute, and the tag ends. -/
theorem readAttributes?_writtenName (e : Fragment) (rest : Text) :
    readAttributes? (e.writtenName ++ '>' :: rest) = some (e.attributes, .opened, rest) := by
  have hend : readAttributes? ('>' :: rest) = some ([], .opened, rest) := by
    rw [readAttributes?]
    rfl
  cases hn : e.name with
  | none =>
    rw [writtenName, attributes, hn]
    exact hend
  | some n =>
    have hskip :
        skipSpace (' ' :: (nameWord ++ '=' :: '"' :: (escapeMarkup n ++ '"' :: '>' :: rest))) =
          nameWord ++ '=' :: '"' :: (escapeMarkup n ++ '"' :: '>' :: rest) := rfl
    have hattribute := read?_nameAttribute (e.inline n hn) ('>' :: rest)
    rw [← hskip] at hattribute
    rw [writtenName_append_of_some hn, readAttributes?_cons rfl rfl hattribute, hend, attributes,
      hn]
    rfl

/-! ## Tokens -/

theorem readTag?_word {word rest : Text} (hne : word ≠ []) (hw : ∀ c ∈ word, c.isLower = true) :
    readTag? (word ++ rest) = readStartTag? (word ++ rest) := by
  obtain ⟨c, word, rfl⟩ := List.exists_cons_of_ne_nil hne
  exact readTag?_name (inQualifiedName_of_isLower (hw c List.mem_cons_self))

theorem read?_opening (e : Fragment) (rest : Text) :
    Token.read? (e.opening ++ rest) =
      some (.startTag { space := [], name := e.tag } e.attributes .opened, rest) := by
  obtain ⟨hne, hw⟩ := e.tag_word
  have hname : QualifiedName.read? (e.tag ++ (e.writtenName ++ '>' :: rest)) =
      some ({ space := [], name := e.tag }, e.writtenName ++ '>' :: rest) := by
    rw [writtenName]
    cases e.name with
    | none => exact QualifiedName.read?_word hne hw rfl
    | some n => exact QualifiedName.read?_word hne hw rfl
  rw [opening_append, Token.read?, if_pos rfl, readTag?_word hne hw, readStartTag?, hname]
  simp only [Option.bind_eq_bind, Option.bind_some]
  rw [readAttributes?_writtenName]
  rfl

theorem read?_closing (e : Fragment) (rest : Text) :
    Token.read? (e.closing ++ rest) =
      some (.endTag { space := [], name := e.tag }, rest) := by
  obtain ⟨hne, hw⟩ := e.tag_word
  have htag : readTag? ('/' :: (e.tag ++ '>' :: rest)) = readEndTag? (e.tag ++ '>' :: rest) := rfl
  rw [closing_append, Token.read?, if_pos rfl, htag, readEndTag?,
    QualifiedName.read?_word hne hw rfl]
  rfl

end Fragment

/-- Text is read up to the next tag, if its references can be resolved. -/
theorem Markup.read?_text {s t : Text} (hne : s ≠ []) (hlt : '<' ∉ s)
    (hallowed : ∀ c ∈ s, isAllowed c = true) (hsection : Text.has "]]>" s = false)
    (hdecode : decodeText? s = some t) (rest : Text) :
    Token.read? (s ++ '<' :: rest) = some (.text t, '<' :: rest) := by
  have hcontent : ∀ c ∈ s, decide (c ≠ '<') = true := fun c hc =>
    decide_eq_true fun h => hlt (h ▸ hc)
  have hread : readText? (s ++ '<' :: rest) = some (.text t, '<' :: rest) := by
    rw [readText?, List.takeWhile_append_of_pos hcontent, List.dropWhile_append_of_pos hcontent,
      List.takeWhile_cons_of_neg (by decide), List.dropWhile_cons_of_neg (by decide),
      List.append_nil, List.all_eq_true.2 hallowed, hsection, hdecode]
    rfl
  obtain ⟨c, tail, rfl⟩ := List.exists_cons_of_ne_nil hne
  have hc : ¬ c = '<' := by
    rintro rfl
    exact hlt List.mem_cons_self
  rw [List.cons_append, Token.read?, if_neg hc]
  exact hread

theorem Markup.read?_text_eq_none {s : Text} (hlt : '<' ∉ s) {c : Char} (hc : c ∈ s)
    (hallowed : isAllowed c = false) (rest : Text) : Token.read? (s ++ '<' :: rest) = none := by
  have hcontent : ∀ d ∈ s, decide (d ≠ '<') = true := fun d hd =>
    decide_eq_true fun h => hlt (h ▸ hd)
  have hall : s.all isAllowed = false := List.all_eq_false.2 ⟨c, hc, by simp [hallowed]⟩
  obtain ⟨d, tail, rfl⟩ := List.exists_cons_of_ne_nil (List.ne_nil_of_mem hc)
  have hd : ¬ d = '<' := by
    rintro rfl
    exact hlt List.mem_cons_self
  rw [List.cons_append, Token.read?, if_neg hd, readText?, ← List.cons_append,
    List.takeWhile_append_of_pos hcontent, List.takeWhile_cons_of_neg (by decide), List.append_nil,
    hall]
  rfl

theorem Markup.read?_escaped {t decoded : Text} (hne : t ≠ []) (ht : ∀ c ∈ t, isAllowed c = true)
    (hdecode : decodeText? (escapeMarkup t) = some decoded) (rest : Text) :
    Token.read? (escapeMarkup t ++ '<' :: rest) = some (.text decoded, '<' :: rest) := by
  obtain ⟨hlt, hgt, -⟩ := not_mem_escapeMarkup t
  have hsection : Text.has "]]>" (escapeMarkup t) = false := by
    rw [Bool.eq_false_iff]
    intro h
    exact hgt (subset_of_has h (by decide))
  exact read?_text (escapeMarkup_ne_nil hne) hlt (forall_mem_escapeMarkup ht (by decide)) hsection
    hdecode rest

/-- Without a carriage return escaped text is read as it was. -/
theorem Markup.read?_escapeMarkup {t : Text} (hne : t ≠ [])
    (ht : ∀ c ∈ t, isAllowed c = true ∧ c ≠ '\r') (rest : Text) :
    Token.read? (escapeMarkup t ++ '<' :: rest) = some (.text t, '<' :: rest) := by
  have hdecode : decodeText? (escapeMarkup t) = some t :=
    decodeText?_escapeMarkup fun h => (ht _ h).2 rfl
  exact read?_escaped hne (fun c hc => (ht c hc).1) hdecode rest

/-! ## Elements -/

namespace Markup

theorem Lexeme.readAll?_of_read? {t rest : Text} {token : Token}
    (h : Token.read? t = some (token, rest)) :
    Lexeme.readAll? t =
      (Lexeme.readAll? rest).map ({ token, width := t.length - rest.length } :: ·) := by
  have hne : t ≠ [] := by
    rintro rfl
    cases h
  rw [readAll?, if_neg hne]
  split
  · next token' rest' h' =>
    rw [h] at h'
    cases h'
    rfl
  · next h' =>
    rw [h] at h'
    cases h'

/-- The elements of a text that `position` characters precede, where an element may be open. -/
def elementsAt? (position : Nat) (unfinished : Option Unfinished) (t : Text) :
    Option (List Element) :=
  (Lexeme.readAll? t).bind (elementsFrom? position unfinished)

theorem elementsAt?_of_read? {position : Nat} {s rest : Text} {token : Token}
    {unfinished next : Option Unfinished} {finished : Option Element}
    (hread : Token.read? (s ++ rest) = some (token, rest))
    (htoken : readToken? position { token, width := s.length } unfinished = some (next, finished)) :
    elementsAt? position unfinished (s ++ rest) =
      (elementsAt? (position + s.length) next rest).map (finished.toList ++ ·) := by
  have hwidth : (s ++ rest).length - rest.length = s.length := by
    rw [List.length_append, Nat.add_sub_cancel]
  simp only [elementsAt?, Lexeme.readAll?_of_read? hread, hwidth]
  cases Lexeme.readAll? rest with
  | none => rfl
  | some lexemes =>
    simp only [Option.map_some, Option.bind_some, elementsFrom?, htoken]
    simp only [Option.bind_eq_bind, Option.bind_some]
    cases elementsFrom? (position + s.length) next lexemes with
    | none => rfl
    | some others => rfl

/-- A text whose first token is not read has no elements. -/
theorem elementsAt?_of_read?_eq_none {position : Nat} {unfinished : Option Unfinished}
    {t : Text} (hne : t ≠ []) (h : Token.read? t = none) :
    elementsAt? position unfinished t = none := by
  have hall : Lexeme.readAll? t = none := by
    rw [Lexeme.readAll?, if_neg hne]
    split
    · next h' =>
      rw [h] at h'
      cases h'
    · rfl
  rw [elementsAt?, hall, Option.bind_none]

theorem Scope.enter?_fragment (e : Fragment) :
    Scope.enter? [] { space := [], name := e.tag } e.attributes = some [] := by
  rw [Fragment.attributes]
  cases e.name with
  | none => rfl
  | some n => rfl

/-- The element of a fragment after its start tag, as far as its text goes. -/
def unfinished (e : Fragment) (position : Nat) (text : Text) : Unfinished where
  element :=
    { name := e.tag
      attributes := e.attributes
      text
      start := position
      stop := position + e.opening.length }
  inner := { name := { space := [], name := e.tag }, scope := [] }
  outer := []

theorem elementsAt?_opening (e : Fragment) (position : Nat) (rest : Text) :
    elementsAt? position none (e.opening ++ rest) =
      elementsAt? (position + e.opening.length) (some (unfinished e position [])) rest := by
  have htoken : readToken? position
      { token := .startTag { space := [], name := e.tag } e.attributes .opened
        width := e.opening.length } none = some (some (unfinished e position []), none) := by
    simp only [readToken?, Scope.enter?_fragment]
    rfl
  rw [elementsAt?_of_read? (e.read?_opening rest) htoken]
  exact Option.map_id'

/-- **The tags of a fragment with text between them are read as its element**, and the rest after
it, whatever the text and however it is written. -/
theorem elementsAt?_written (e : Fragment) {written text : Text}
    (hread : ∀ rest, Token.read? (written ++ '<' :: rest) = some (.text text, '<' :: rest))
    (position : Nat) (rest : Text) :
    elementsAt? position none (e.opening ++ (written ++ (e.closing ++ rest))) =
      (elementsAt? (position + (e.opening ++ written ++ e.closing).length) none rest).map
        ({ e.element position with
            text
            stop := position + (e.opening ++ written ++ e.closing).length } :: ·) := by
  have hlength : position + e.opening.length + written.length + e.closing.length =
      position + (e.opening ++ written ++ e.closing).length := by
    simp only [List.length_append]
    omega
  have htext (width : Nat) :
      readToken? (position + e.opening.length) { token := .text text, width }
        (some (unfinished e position [])) = some (some (unfinished e position text), none) := rfl
  have hclosing : readToken? (position + e.opening.length + written.length)
      { token := .endTag { space := [], name := e.tag }, width := e.closing.length }
      (some (unfinished e position text)) =
      some (none, some { e.element position with
        text
        stop := position + (e.opening ++ written ++ e.closing).length }) := by
    rw [← hlength]
    exact if_pos rfl
  have hbody : Token.read? (written ++ (e.closing ++ rest)) =
      some (.text text, e.closing ++ rest) := hread _
  rw [elementsAt?_opening, elementsAt?_of_read? hbody (htext _),
    elementsAt?_of_read? (e.read?_closing rest) hclosing, hlength]
  cases elementsAt? (position + (e.opening ++ written ++ e.closing).length) none rest with
  | none => rfl
  | some elements => rfl

/-- **A fragment is read as its element**, and the rest after it. -/
theorem elementsAt?_markup (e : Fragment) (position : Nat) (rest : Text) :
    elementsAt? position none (e.markup ++ rest) =
      (elementsAt? (position + e.markup.length) none rest).map (e.element position :: ·) := by
  rw [e.markup_append]
  exact elementsAt?_written e (read?_escapeMarkup e.ne_nil e.allowed) position rest

/-- A line feed before a tag is read as text, which belongs to no element. -/
theorem elementsAt?_lineFeed (position : Nat) (rest : Text) :
    elementsAt? position none ('\n' :: '<' :: rest) =
      elementsAt? (position + 1) none ('<' :: rest) := by
  have hread : Token.read? (['\n'] ++ '<' :: rest) = some (.text ['\n'], '<' :: rest) :=
    read?_escapeMarkup (t := ['\n']) (by decide) (by decide) rest
  have htoken : readToken? position { token := .text ['\n'], width := 1 } none =
      some (none, none) := rfl
  have h := elementsAt?_of_read? hread htoken
  rw [List.singleton_append] at h
  rw [h]
  exact Option.map_id'

/-- The elements of fragments on lines of their own. -/
def elementsOf (position : Nat) : List Fragment → List Element
  | [] => []
  | e :: rest => e.element position :: elementsOf (position + e.markup.length + 1) rest

theorem elementsAt?_nil (position : Nat) : elementsAt? position none [] = some [] := by
  rw [elementsAt?, Lexeme.readAll?]
  rfl

theorem exists_joinLines_markup (e : Fragment) (es : List Fragment) :
    ∃ rest, joinLines ((e :: es).map Fragment.markup) = '<' :: rest := by
  cases es with
  | nil =>
    refine ⟨e.tag ++ e.writtenName ++ ">" ++ escapeMarkup e.text ++ e.closing, ?_⟩
    rw [List.map_cons, List.map_nil, joinLines, List.intercalate_singleton]
    rfl
  | cons e' es =>
    refine ⟨e.tag ++ e.writtenName ++ ">" ++ escapeMarkup e.text ++ e.closing ++
      '\n' :: joinLines ((e' :: es).map Fragment.markup), ?_⟩
    simp only [List.map_cons, joinLines_cons_cons]
    rfl

theorem elementsAt?_joinLines (position : Nat) (es : List Fragment) :
    elementsAt? position none (joinLines (es.map Fragment.markup)) =
      some (elementsOf position es) := by
  induction es generalizing position with
  | nil => exact elementsAt?_nil position
  | cons e es ih =>
    cases es with
    | nil =>
      have h := elementsAt?_markup e position []
      rw [List.append_nil, elementsAt?_nil] at h
      rw [List.map_cons, List.map_nil, joinLines, List.intercalate_singleton]
      exact h
    | cons e' es =>
      have hrest := ih (position + e.markup.length + 1)
      obtain ⟨rest, h⟩ := exists_joinLines_markup e' es
      rw [List.map_cons] at h
      rw [List.map_cons, h] at hrest
      rw [List.map_cons, List.map_cons, joinLines_cons_cons, elementsAt?_markup, h,
        elementsAt?_lineFeed, hrest]
      rfl

/-- **Fragments on lines of their own are read back**, one by one. -/
theorem elements?_joinLines (es : List Fragment) :
    elements? (joinLines (es.map Fragment.markup)) = some (elementsOf 0 es) :=
  elementsAt?_joinLines 0 es

end Markup

end DocAudit
