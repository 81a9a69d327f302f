import DocAudit.Proofs.Source.WrittenName
import DocAudit.Source.ObjectHeader

/-!
# Object headers as they are written

An object header is written on one line, with any blanks between its parts, and read back.

    codeunit 50100 "Sales // {Mgt}" implements "ISales, Handler", ILog { // the facade

The name may hold what ends a header elsewhere: a brace, the marks of a comment, the word of a
relation. It stands in quotes then, and the readers of the line agree on where the quotes close.
Only the target of a relation is cut at the first brace, quoted or not.

* `WrittenRelation`, `WrittenObject`: what can be written.
* `targetText?_eq`: where a target ends.
* `ObjectHeader.read?_written`: what is read of a written header.
* `ObjectHeader.read?_writtenObject`: its kind, its number, its name and the kind of its relation.
-/

namespace DocAudit

/-! ## What can be written -/

/-- Blanks on one line, possibly none. -/
structure Blanks where
  text : Text
  blank : allBlank text = true
  oneLine : '\n' ∉ text

/-- Blanks that keep two parts of a line apart. -/
structure Gap extends Blanks where
  ne_nil : text ≠ []

/-- The word for a relation. -/
def RelationKind.word : RelationKind → Text
  | .extending => "extends"
  | .implementing => "implements"

/-- One more name in a relation, after a comma. -/
structure FurtherName where
  beforeComma : Blanks
  afterComma : Blanks
  name : WrittenName

/-- The name as it is written, with its comma. -/
def FurtherName.written (n : FurtherName) : Text :=
  n.beforeComma.text ++ ',' :: (n.afterComma.text ++ n.name.written)

/-- A relation, after the name of the object. -/
structure WrittenRelation where
  gap : Gap
  kind : RelationKind
  /-- The word of the relation, in any case. -/
  word : Text
  word_eq : lower word = kind.word
  gapAfterWord : Gap
  first : WrittenName
  others : List FurtherName

/-- A number, before the name of the object. -/
structure WrittenNumber where
  value : Nat
  value_le : value ≤ maxObjectNumber
  gapAfter : Gap

/-- An object header. -/
structure WrittenObject where
  indent : Blanks
  keyword : Text
  keyword_start : keyword.head?.any Char.isAlpha = true
  keyword_chars : ∀ c ∈ keyword, c.isAlphanum = true
  /-- A line that starts with one of these words declares no object. -/
  keyword_ne : lower keyword ≠ ("procedure" : Text) ∧ lower keyword ≠ ("trigger" : Text)
  gap : Gap
  number : Option WrittenNumber
  name : WrittenName
  relation : Option WrittenRelation
  /-- The blanks before an opening brace, if there is one. -/
  brace : Option Gap
  /-- The blanks before a comment and its text, if there is one. -/
  comment : Option (Gap × Text)

namespace WrittenRelation

/-- All names of the relation. -/
def names (r : WrittenRelation) : List WrittenName := r.first :: r.others.map FurtherName.name

/-- The names as they are written. -/
def targetsText (r : WrittenRelation) : Text :=
  r.first.written ++ r.others.flatMap FurtherName.written

/-- The relation as it is written. -/
def written (r : WrittenRelation) : Text :=
  r.gap.text ++ (r.word ++ (r.gapAfterWord.text ++ r.targetsText))

/-- The relation as it is read: its target ends before the first brace. -/
def clause (r : WrittenRelation) : Relation where
  kind := r.kind
  target := trim (r.targetsText.takeWhile (· ≠ '{'))

end WrittenRelation

namespace WrittenObject

/-- The number as it is written. -/
def numberText (h : WrittenObject) : Text :=
  (h.number.map fun n => decimal n.value ++ n.gapAfter.text).getD []

/-- The relation as it is written. -/
def relationText (h : WrittenObject) : Text := (h.relation.map WrittenRelation.written).getD []

/-- The brace as it is written. -/
def braceText (h : WrittenObject) : Text := (h.brace.map fun gap => gap.text ++ ['{']).getD []

/-- The blanks before the comment. -/
def commentGap (h : WrittenObject) : Text := (h.comment.map fun (gap, _) => gap.text).getD []

/-- The comment without the blanks before it. -/
def commentText (h : WrittenObject) : Text :=
  (h.comment.map fun (_, t) => '/' :: '/' :: t).getD []

/-- The end of the line without a comment. -/
def ending (h : WrittenObject) : Text := h.braceText ++ h.commentGap

/-- What follows the keyword and its blanks, without a comment. -/
def body (h : WrittenObject) : Text :=
  h.numberText ++ (h.name.written ++ (h.relationText ++ h.ending))

/-- The line without a comment. -/
def code (h : WrittenObject) : Text := h.indent.text ++ (h.keyword ++ (h.gap.text ++ h.body))

/-- The header as it is written. -/
def written (h : WrittenObject) : Text := h.code ++ h.commentText

/-- The header as it is read. -/
def header (h : WrittenObject) : ObjectHeader where
  keyword := h.keyword
  number := h.number.map WrittenNumber.value
  name := h.name.value
  relation := h.relation.map WrittenRelation.clause

end WrittenObject

/-! ## Blanks -/

section Blanks

variable {c d : Char} {t : Text}

/-- Text that every reader passes over, and that makes no comment with a slash before it. -/
structure Inert (t : Text) : Prop where
  passable : Passable t
  head : t.head? ≠ some '/'

namespace Inert

variable {s : Text}

theorem nil : Inert [] := ⟨.of_plain fun _ h => absurd h List.not_mem_nil, nofun⟩

theorem append (hs : Inert s) (ht : Inert t) : Inert (s ++ t) where
  passable := hs.passable.append ht.passable ht.head
  head := by
    cases s with
    | nil => exact ht.head
    | cons c s => exact hs.head

theorem of_plain (h : ∀ c ∈ t, isDelimiter c = false ∧ c ≠ '/') : Inert t :=
  ⟨.of_plain h, fun hhead => (h '/' (List.mem_of_head? hhead)).2 rfl⟩

theorem of_inIdentifier (h : ∀ c ∈ t, inIdentifier c = true) : Inert t := .of_plain fun c hc =>
  ⟨isDelimiter_of_inIdentifier (h c hc), ne_of_inIdentifier (h c hc) (by decide)⟩

end Inert

namespace Blanks

variable (b : Blanks)

theorem isBlank_of_mem (h : c ∈ b.text) : isBlank c = true := List.all_eq_true.1 b.blank c h

theorem not_mem (hc : isBlank c = false) : c ∉ b.text := fun hmem =>
  ne_of_isBlank (b.isBlank_of_mem hmem) hc rfl

theorem inert : Inert b.text := .of_plain fun c hc => by
  have hblank := b.isBlank_of_mem hc
  refine ⟨?_, ne_of_isBlank hblank (by decide)⟩
  simp only [isDelimiter, Bool.or_eq_false_iff, decide_eq_false_iff_not]
  refine ⟨⟨⟨⟨⟨?_, ?_⟩, ?_⟩, ?_⟩, ?_⟩, ?_⟩ <;> exact ne_of_isBlank hblank (by decide)

end Blanks

namespace Gap

variable (g : Gap)

theorem head (t : Text) : (g.text ++ t).head?.any isBlank = true := by
  obtain ⟨c, rest, heq⟩ := List.exists_cons_of_ne_nil g.ne_nil
  have hblank := g.blank
  rw [heq, allBlank, List.all_cons, Bool.and_eq_true] at hblank
  rw [heq]
  exact hblank.1

theorem isBlank_of_head? (t : Text) : ∀ c ∈ (g.text ++ t).head?, isBlank c = true := by
  intro c hc
  have hhead := g.head t
  rw [hc] at hhead
  exact hhead

theorem blankRun_append (ht : t.head?.any isBlank = false) : blankRun (g.text ++ t) = some t :=
  IsGap.blankRun_append ⟨g.ne_nil, g.blank⟩ ht

end Gap

end Blanks

/-! ## Words, numbers and names -/

theorem word?_append {keyword rest : Text} (hstart : keyword.head?.any Char.isAlpha = true)
    (hchars : ∀ c ∈ keyword, c.isAlphanum = true) (hrest : rest.head?.any isBlank = true) :
    word? (keyword ++ rest) = some (keyword, rest) := by
  have hinWord {c : Char} (hc : c.isAlphanum = true) : (isLetter c || c.isDigit) = true := by
    simp only [Char.isAlphanum, Bool.or_eq_true, isLetter] at hc ⊢
    tauto
  cases keyword with
  | nil => cases hstart
  | cons c word =>
    cases rest with
    | nil => cases hrest
    | cons d rest =>
      have hc : isLetter c = true := by
        have halpha : c.isAlpha = true := hstart
        rw [isLetter, halpha]
        rfl
      have hword : ∀ e ∈ word, (isLetter e || e.isDigit) = true := fun e he =>
        hinWord (hchars e (List.mem_cons_of_mem c he))
      have hd : ¬ (isLetter d || d.isDigit) = true := by
        have hstop := continuesIdentifier_of_isBlank hrest
        simp only [continuesIdentifier, startsIdentifier, Bool.or_eq_false_iff] at hstop
        rw [hstop.1.1, hstop.2]
        exact Bool.false_ne_true
      rw [List.cons_append, word?, if_pos hc]
      have htake := @List.takeWhile_cons_of_neg _ (fun e => isLetter e || e.isDigit) d rest hd
      have hdrop := @List.dropWhile_cons_of_neg _ (fun e => isLetter e || e.isDigit) d rest hd
      simp only [List.takeWhile_append_of_pos hword, List.dropWhile_append_of_pos hword, htake,
        hdrop, List.append_nil]

theorem digitsValue_decimal (n : Nat) : digitsValue (decimal n) = n := by
  rw [decimal_eq]
  exact Nat.ofDigitChars_toDigits (by decide) (by decide)

theorem number?_decimal (n : Nat) {rest : Text} (hrest : rest.head?.any isBlank = true) :
    number? (decimal n ++ rest) = some (decimal n, rest) := by
  cases rest with
  | nil => cases hrest
  | cons d rest =>
    have hd : ¬ d.isDigit = true := by
      have hstop := continuesIdentifier_of_isBlank hrest
      rw [continuesIdentifier, Bool.or_eq_false_iff] at hstop
      rw [hstop.2]
      exact Bool.false_ne_true
    have hdigits : ∀ c ∈ decimal n, Char.isDigit c = true := fun c => isDigit_of_mem_decimal
    have hne : decimal n ≠ [] := by
      rw [decimal_eq]
      exact Nat.toDigits_ne_nil
    rw [number?, List.takeWhile_append_of_pos hdigits, List.dropWhile_append_of_pos hdigits,
      List.takeWhile_cons_of_neg hd, List.dropWhile_cons_of_neg hd, List.append_nil]
    simp only [List.isEmpty_iff, if_neg hne]

theorem inIdentifier_of_isAlphanum {c : Char} (h : c.isAlphanum = true) :
    inIdentifier c = true := by
  rw [inIdentifier, h, Bool.true_or]

theorem inIdentifier_of_mem_decimal {n : Nat} {c : Char} (h : c ∈ decimal n) :
    inIdentifier c = true := inIdentifier_of_isAlphanum (by
  rw [Char.isAlphanum, isDigit_of_mem_decimal h, Bool.or_true])

theorem inert_decimal (n : Nat) : Inert (decimal n) :=
  .of_inIdentifier fun _ => inIdentifier_of_mem_decimal

namespace WrittenName

variable (n : WrittenName)

theorem inert_written : Inert n.written :=
  ⟨n.passable_written, n.head?_written_ne (by decide) (by decide)⟩

theorem head?_written_append (rest : Text) : (n.written ++ rest).head? = n.written.head? := by
  obtain ⟨c, t, heq⟩ := List.exists_cons_of_ne_nil n.trimmed_written.ne_nil
  rw [heq]
  rfl

/-- A name does not start with a digit. -/
theorem number?_written (rest : Text) : number? (n.written ++ rest) = none := by
  have hhead : ∃ c t, n.written = c :: t ∧ ¬ c.isDigit = true := by
    cases n with
    | identifier t h =>
      cases t with
      | nil => cases h
      | cons c t =>
        rw [isIdentifier, Bool.and_eq_true] at h
        exact ⟨c, t, rfl, by simpa using h.1⟩
    | quoted t hne hline => exact ⟨'"', _, rfl, by decide⟩
  obtain ⟨c, t, heq, hc⟩ := hhead
  rw [number?, heq, List.cons_append, List.takeWhile_cons_of_neg hc]
  rfl

/-- A written name is read before blanks and at the end of a text. -/
theorem name?_written_append {rest : Text} (hrest : ∀ c ∈ rest.head?, isBlank c = true) :
    name? (n.written ++ rest) = some (n.written, rest) :=
  n.spells.name?_append fun c hc =>
    ⟨continuesIdentifier_of_isBlank (hrest c hc), ne_of_isBlank (hrest c hc) (by decide)⟩

end WrittenName

/-! ## Where a target ends -/

section Target

variable {t : Text}

theorem endsHeader_append {blanks : Text} (hb : allBlank blanks = true) (t : Text) :
    endsHeader (blanks ++ t) = endsHeader t := by
  rw [endsHeader, trimLeft_blanks_append hb, endsHeader]

theorem endsHeader_cons {c : Char} {rest : Text} (hc : isBlank c = true) :
    endsHeader (c :: rest) = endsHeader rest := by
  have hleft : trimLeft (c :: rest) = trimLeft rest := List.dropWhile_cons_of_pos hc
  rw [endsHeader, hleft, endsHeader]

/-- Something that is neither a blank nor a brace does not end a header. -/
theorem endsHeader_eq_false {c : Char} {rest : Text} (hc : isBlank c = false) (hbrace : c ≠ '{') :
    endsHeader (c :: rest) = false := by
  have hleft : trimLeft (c :: rest) = c :: rest := trimLeft_eq_self hc
  rw [endsHeader, hleft]
  simp only [hbrace, decide_false, Bool.false_and]

/-- A line may end where only blanks come before its first brace. -/
theorem endsHeader_iff (hline : '\n' ∉ t) :
    endsHeader t = true ↔ allBlank (t.takeWhile (· ≠ '{')) = true := by
  induction t with
  | nil => exact iff_of_true rfl rfl
  | cons c rest ih =>
    have hrest : '\n' ∉ rest := fun hmem => hline (List.mem_cons_of_mem c hmem)
    by_cases hbrace : c = '{'
    · have hleft : trimLeft (c :: rest) = c :: rest :=
        trimLeft_eq_self (by rw [hbrace]; rfl)
      have hall : rest.all (· ≠ '\n') = true :=
        List.all_eq_true.2 fun d hd => decide_eq_true fun hn => hrest (hn ▸ hd)
      rw [List.takeWhile_cons_of_neg (by simpa using hbrace), endsHeader, hleft]
      refine iff_of_true ?_ rfl
      simp only [hbrace, hall, decide_true, Bool.and_self]
    · rw [List.takeWhile_cons_of_pos (by simpa using hbrace), allBlank, List.all_cons, ← allBlank,
        Bool.and_eq_true]
      by_cases hc : isBlank c = true
      · rw [endsHeader_cons hc, ih hrest]
        exact (and_iff_right hc).symm
      · rw [endsHeader_eq_false (Bool.eq_false_iff.2 hc) hbrace]
        exact iff_of_false Bool.false_ne_true fun h => hc h.1

/-- **A target ends before the first brace**, or with the line, blanks apart. -/
theorem targetText?_eq (hline : '\n' ∉ t) (hends : endsHeader t = false) :
    targetText? t = some (trimRight (t.takeWhile (· ≠ '{'))) := by
  induction t with
  | nil => cases hends
  | cons c rest ih =>
    have hrest : '\n' ∉ rest := fun hmem => hline (List.mem_cons_of_mem c hmem)
    have hbrace : c ≠ '{' := by
      rintro rfl
      rw [(endsHeader_iff hline).2 (by rw [List.takeWhile_cons_of_neg (by decide)]; rfl)] at hends
      cases hends
    have hn : c ≠ '\n' := fun hn => hline (hn ▸ List.mem_cons_self)
    rw [targetText?, if_neg hn, List.takeWhile_cons_of_pos (by simpa using hbrace), trimRight_cons]
    -- The target ends here if the header may end after `c`, and `c` is no blank then: otherwise the
    -- header could have ended before it.
    by_cases hstop : endsHeader rest = true
    · have hc : ¬ isBlank c = true := fun hc => by
        rw [endsHeader_cons hc, hstop] at hends
        cases hends
      rw [if_pos hstop, if_pos (trimRight_eq_nil_iff.2 ((endsHeader_iff hrest).1 hstop)),
        if_neg hc]
    · rw [if_neg hstop, ih hrest (Bool.eq_false_iff.2 hstop), if_neg fun hnil =>
        hstop ((endsHeader_iff hrest).2 (trimRight_eq_nil_iff.1 hnil))]
      rfl

end Target

/-! ## Relations -/

theorem inIdentifier_of_toLower {c : Char} (h : inIdentifier c.toLower = true) :
    inIdentifier c = true := (toLower_congr (f := inIdentifier) (by decide) c).symm.trans h

theorem foldCase_of_inIdentifier {c : Char} (h : inIdentifier c = true) :
    foldCase c = c.toLower := by
  rw [foldCase, if_neg (ne_of_inIdentifier h (by decide)),
    if_neg (ne_of_inIdentifier h (by decide))]

/-- A word is read in any case. -/
theorem readFolded_of_lower {word seen : Text} (h : lower seen = word)
    (hseen : ∀ c ∈ seen, inIdentifier c = true) (rest : Text) :
    readFolded word (seen ++ rest) = some (seen, rest) := by
  have hmap : seen.map foldCase = lower seen :=
    List.map_congr_left fun c hc => foldCase_of_inIdentifier (hseen c hc)
  exact readFolded_eq_some_iff.2 ⟨hmap.trans h, rfl⟩

/-- A relation is read after its word, which is not the word of another relation. -/
theorem relation?_eq {k : RelationKind} {t seen after target : Text}
    (hread : readFolded k.word t = some (seen, after)) (hseen : lower seen = k.word)
    (hother : ∀ k', k' ≠ k → readFolded k'.word t = none)
    (hgap : after.head?.any isBlank = true) (htarget : target? after = some target) :
    relation? t = some { kind := k, target } := by
  rw [relation?, relationWords, List.findSome?_cons]
  cases k with
  | extending =>
    have hextends : readFolded ("extends" : Text) t = some (seen, after) := hread
    simp only [hextends, hgap, htarget, if_true, Option.map_some, hseen]
    rfl
  | implementing =>
    have hextends : readFolded ("extends" : Text) t = none := hother .extending nofun
    have himplements : readFolded ("implements" : Text) t = some (seen, after) := hread
    simp only [hextends, himplements, hgap, htarget, if_true, Option.map_some, hseen,
      List.findSome?_cons]
    rfl

theorem RelationKind.inIdentifier_word (k : RelationKind) :
    ∀ c ∈ k.word, inIdentifier c = true := by
  cases k <;> decide

namespace WrittenRelation

variable (r : WrittenRelation) {ending : Text}

theorem inIdentifier_word : ∀ c ∈ r.word, inIdentifier c = true := fun c hc => by
  refine inIdentifier_of_toLower (r.kind.inIdentifier_word _ ?_)
  rw [← r.word_eq]
  exact List.mem_map_of_mem hc

theorem exists_word_eq : ∃ c rest, r.word = c :: rest := by
  refine List.exists_cons_of_ne_nil fun hnil => ?_
  have hword := r.word_eq
  rw [hnil] at hword
  cases hkind : r.kind <;> rw [hkind] at hword <;> cases hword

theorem head?_word_append (rest : Text) : (r.word ++ rest).head?.any isBlank = false := by
  obtain ⟨c, word, heq⟩ := r.exists_word_eq
  have hc := r.inIdentifier_word c (heq ▸ List.mem_cons_self)
  rw [heq]
  exact isBlank_of_inIdentifier hc

theorem exists_targetsText_eq :
    ∃ c rest, r.targetsText = c :: rest ∧ isBlank c = false ∧ c ≠ '{' := by
  obtain ⟨c, rest, heq⟩ := List.exists_cons_of_ne_nil r.first.trimmed_written.ne_nil
  have hblank := r.first.trimmed_written.first
  have hbrace := @WrittenName.head?_written_ne '{' r.first (by decide) (by decide)
  rw [heq] at hblank hbrace
  refine ⟨c, _, by rw [targetsText, heq, List.cons_append], hblank, fun hc => hbrace ?_⟩
  rw [hc]
  rfl

/-- The targets are names, commas and blanks on one line. -/
theorem of_mem_targetsText {c : Char} (h : c ∈ r.targetsText) :
    (∃ n ∈ r.names, c ∈ n.written) ∨ c = ',' ∨ (isBlank c = true ∧ c ≠ '\n') := by
  have hblanks (b : Blanks) (hc : c ∈ b.text) : isBlank c = true ∧ c ≠ '\n' :=
    ⟨b.isBlank_of_mem hc, fun hn => b.oneLine (hn ▸ hc)⟩
  rcases List.mem_append.1 h with h | h
  · exact Or.inl ⟨r.first, List.mem_cons_self, h⟩
  · obtain ⟨n, hn, h⟩ := List.mem_flatMap.1 h
    rcases List.mem_append.1 h with h | h
    · exact Or.inr (Or.inr (hblanks _ h))
    · rcases List.mem_cons.1 h with h | h
      · exact Or.inr (Or.inl h)
      · rcases List.mem_append.1 h with h | h
        · exact Or.inr (Or.inr (hblanks _ h))
        · exact Or.inl ⟨n.name, List.mem_cons_of_mem _ (List.mem_map_of_mem hn), h⟩

theorem oneLine_targetsText : '\n' ∉ r.targetsText := by
  intro hmem
  rcases r.of_mem_targetsText hmem with ⟨n, -, hmem⟩ | hcomma | ⟨-, hne⟩
  · exact n.oneLine_written hmem
  · cases hcomma
  · exact hne rfl

theorem inert_targetsText : Inert r.targetsText := by
  refine r.first.inert_written.append ?_
  induction r.others with
  | nil => exact .nil
  | cons n others ih =>
    have hcomma : Inert [','] := .of_plain (by decide)
    rw [List.flatMap_cons, FurtherName.written,
      ← @List.singleton_append _ ',' (n.afterComma.text ++ n.name.written)]
    exact (n.beforeComma.inert.append
      (hcomma.append (n.afterComma.inert.append n.name.inert_written))).append ih

theorem inert_written : Inert r.written :=
  r.gap.inert.append ((Inert.of_inIdentifier r.inIdentifier_word).append
    (r.gapAfterWord.inert.append r.inert_targetsText))

/-- What follows the targets does not change where they end, if a header may end there. -/
theorem target?_written (hline : '\n' ∉ ending) (hends : endsHeader ending = true) :
    target? (r.gapAfterWord.text ++ (r.targetsText ++ ending)) = some r.clause.target := by
  obtain ⟨c, rest, heq, hblank, hbrace⟩ := r.exists_targetsText_eq
  have hfull : '\n' ∉ r.targetsText ++ ending := fun hmem =>
    (List.mem_append.1 hmem).elim r.oneLine_targetsText hline
  have hread := targetText?_eq hfull (by rw [heq]; exact endsHeader_eq_false hblank hbrace)
  -- The first brace stands in the targets or after them, and then only blanks come before it.
  have hcut : trim ((r.targetsText ++ ending).takeWhile (· ≠ '{')) = r.clause.target := by
    rw [clause, List.takeWhile_append]
    split
    · next hall =>
      have hself := (List.takeWhile_prefix (l := r.targetsText) (· ≠ '{')).eq_of_length hall
      rw [trim_append_allBlank ((endsHeader_iff hline).1 hends), hself]
    · rfl
  have hleft : trimLeft (r.gapAfterWord.text ++ (r.targetsText ++ ending)) =
      c :: (rest ++ ending) := by
    rw [trimLeft_blanks_append r.gapAfterWord.blank, heq, List.cons_append]
    exact trimLeft_eq_self hblank
  rw [target?, hleft]
  simp only
  rw [heq, List.cons_append] at hread hcut
  rw [hread, Option.map_some, trim_trimRight, hcut]

/-- The word of one relation is not read as the word of another. -/
theorem readFolded_word_eq_none {k : RelationKind} (hk : k ≠ r.kind) (rest : Text) :
    readFolded k.word (r.word ++ rest) = none := by
  obtain ⟨c, word, heq⟩ := r.exists_word_eq
  have hfold := foldCase_of_inIdentifier (r.inIdentifier_word c (heq ▸ List.mem_cons_self))
  have hfirst : r.kind.word.head? = some (foldCase c) := by
    rw [← r.word_eq, heq, hfold]
    rfl
  have hstart : ∀ k', k ≠ k' → ∀ d, k'.word.head? = some d → k.word.head?.any (· ≠ d) = true := by
    intro k' hne d hd
    cases k <;> cases k' <;> cases hd <;> first | exact absurd rfl hne | decide
  rw [heq, List.cons_append]
  exact readFolded_eq_none (hstart r.kind hk _ hfirst) _

theorem relation?_written (hline : '\n' ∉ ending) (hends : endsHeader ending = true) :
    relation? (r.word ++ (r.gapAfterWord.text ++ (r.targetsText ++ ending))) = some r.clause :=
  relation?_eq (readFolded_of_lower r.word_eq r.inIdentifier_word _) r.word_eq
    (fun _ hk => r.readFolded_word_eq_none hk _) (r.gapAfterWord.head _)
    (r.target?_written hline hends)

end WrittenRelation

/-! ## Whole headers -/

namespace WrittenObject

variable (h : WrittenObject)

theorem inert_numberText : Inert h.numberText := by
  rw [numberText]
  cases h.number with
  | none => exact .nil
  | some n => exact (inert_decimal n.value).append n.gapAfter.inert

theorem inert_relationText : Inert h.relationText := by
  rw [relationText]
  cases h.relation with
  | none => exact .nil
  | some r => exact r.inert_written

theorem inert_braceText : Inert h.braceText := by
  rw [braceText]
  cases h.brace with
  | none => exact .nil
  | some g => exact g.inert.append (.of_plain (by decide))

theorem inert_commentGap : Inert h.commentGap := by
  rw [commentGap]
  cases h.comment with
  | none => exact .nil
  | some comment => exact comment.1.inert

theorem inert_code : Inert h.code := by
  have hkeyword : Inert h.keyword := .of_inIdentifier fun c hc =>
    inIdentifier_of_isAlphanum (h.keyword_chars c hc)
  have hending : Inert h.ending := h.inert_braceText.append h.inert_commentGap
  have hname : Inert (h.name.written ++ (h.relationText ++ h.ending)) :=
    h.name.inert_written.append (h.inert_relationText.append hending)
  exact h.indent.inert.append
    (hkeyword.append (h.gap.inert.append (h.inert_numberText.append hname)))

/-- Before a comment there is a blank, so no slash before it is taken for its first. -/
theorem getLast?_code_ne (hcomment : h.comment ≠ none) : h.code.getLast? ≠ some '/' := by
  obtain ⟨⟨g, t⟩, hsome⟩ := Option.ne_none_iff_exists'.1 hcomment
  have hgap : h.commentGap = g.text := by rw [commentGap, hsome]; rfl
  have hcode : ∃ before, h.code = before ++ g.text := by
    refine ⟨h.indent.text ++ (h.keyword ++ (h.gap.text ++ (h.numberText ++ (h.name.written ++
      (h.relationText ++ h.braceText))))), ?_⟩
    rw [code, body, ending, hgap]
    simp only [List.append_assoc]
  obtain ⟨before, hcode⟩ := hcode
  rw [hcode, List.getLast?_append_of_ne_nil _ g.ne_nil]
  intro hlast
  exact ne_of_isBlank (List.all_eq_true.1 g.blank _ (List.mem_of_getLast? hlast))
    (show isBlank '/' = false by decide) rfl

theorem stripComment_written : stripComment h.written = h.code := by
  rw [stripComment, written, commentText]
  cases hcomment : h.comment with
  | none =>
    exact (congrArg _ (List.append_nil h.code)).trans
      (stripCommentFrom_eq_self h.inert_code.passable.commentFree)
  | some comment =>
    have hlast := h.getLast?_code_ne (by rw [hcomment]; exact Option.some_ne_none comment)
    exact stripCommentFrom_append_comment h.inert_code.passable.commentFree
      h.inert_code.passable.quoting hlast comment.2

theorem oneLine_commentGap : '\n' ∉ h.commentGap := by
  rw [commentGap]
  cases h.comment with
  | none => exact List.not_mem_nil
  | some comment => exact comment.1.oneLine

theorem oneLine_ending : '\n' ∉ h.ending := by
  rw [ending, braceText, List.mem_append]
  rintro (hmem | hmem)
  · cases hbrace : h.brace with
    | none =>
      rw [hbrace] at hmem
      cases hmem
    | some g =>
      rw [hbrace] at hmem
      rcases List.mem_append.1 hmem with hmem | hmem
      · exact g.oneLine hmem
      · cases List.mem_singleton.1 hmem
  · exact h.oneLine_commentGap hmem

theorem allBlank_commentGap : allBlank h.commentGap = true := by
  rw [commentGap]
  cases h.comment with
  | none => rfl
  | some comment => exact comment.1.blank

/-- A header may end where it does. -/
theorem endsHeader_ending : endsHeader h.ending = true := by
  rw [ending, braceText]
  cases h.brace with
  | none =>
    have hends := endsHeader_append h.allBlank_commentGap []
    rwa [List.append_nil] at hends
  | some g =>
    have hall : h.commentGap.all (· ≠ '\n') = true := List.all_eq_true.2 fun c hc =>
      decide_eq_true fun hn => h.oneLine_commentGap (hn ▸ hc)
    have hleft : trimLeft ('{' :: h.commentGap) = '{' :: h.commentGap := trimLeft_eq_self rfl
    rw [Option.map_some, Option.getD_some, List.append_assoc, endsHeader_append g.blank,
      List.singleton_append, endsHeader, hleft]
    simp only [hall, decide_true, Bool.and_self]

/-- What follows the name starts with a blank, if there is anything. -/
theorem isBlank_of_head?_tail :
    ∀ c ∈ (h.relationText ++ h.ending).head?, isBlank c = true := by
  rw [relationText, ending, braceText, commentGap]
  cases h.relation with
  | some r =>
    rw [Option.map_some, Option.getD_some, WrittenRelation.written, List.append_assoc]
    exact r.gap.isBlank_of_head? _
  | none =>
    cases h.brace with
    | some g =>
      rw [Option.map_some, Option.getD_some, List.append_assoc]
      exact g.isBlank_of_head? _
    | none =>
      cases h.comment with
      | some comment =>
        have hhead := comment.1.isBlank_of_head? []
        rwa [List.append_nil] at hhead
      | none => exact nofun

theorem headerTail?_tail :
    headerTail? (h.relationText ++ h.ending) = some (h.relation.map WrittenRelation.clause) := by
  rw [headerTail?, relationText]
  cases h.relation with
  | none =>
    rw [Option.map_none, Option.getD_none, List.nil_append, if_pos h.endsHeader_ending]
    rfl
  | some r =>
    obtain ⟨c, word, heq⟩ := r.exists_word_eq
    have hc := r.inIdentifier_word c (heq ▸ List.mem_cons_self)
    have hopen : ¬ endsHeader (r.gap.text ++ (r.word ++
        (r.gapAfterWord.text ++ (r.targetsText ++ h.ending)))) = true := by
      rw [endsHeader_append r.gap.blank, heq, List.cons_append,
        endsHeader_eq_false (isBlank_of_inIdentifier hc) (ne_of_inIdentifier hc (by decide))]
      exact Bool.false_ne_true
    have hrun := r.gap.blankRun_append (r.head?_word_append
      (r.gapAfterWord.text ++ (r.targetsText ++ h.ending)))
    simp only [Option.map_some, Option.getD_some, WrittenRelation.written, List.append_assoc]
    rw [if_neg hopen, hrun]
    simp only [r.relation?_written h.oneLine_ending h.endsHeader_ending, Option.map_some]

theorem headerBody?_body (keyword : Text) :
    headerBody? keyword h.body = some { h.header with keyword := keyword } := by
  have hname := h.name.name?_written_append h.isBlank_of_head?_tail
  rw [headerBody?, body, numberText, header]
  cases h.number with
  | none =>
    simp only [Option.map_none, Option.getD_none, List.nil_append, h.name.number?_written, hname,
      h.headerTail?_tail, h.name.unquote_written, Option.bind_eq_bind, Option.bind_some,
      Option.pure_def]
  | some n =>
    have hrun := n.gapAfter.blankRun_append (t := h.name.written ++ (h.relationText ++ h.ending))
      (by rw [h.name.head?_written_append]; exact h.name.trimmed_written.first)
    have hnumber := number?_decimal n.value
      (n.gapAfter.head (h.name.written ++ (h.relationText ++ h.ending)))
    simp only [Option.map_some, Option.getD_some, List.append_assoc, hnumber, hrun, hname,
      h.headerTail?_tail, h.name.unquote_written, Option.bind_eq_bind, Option.bind_some,
      digitsValue_decimal, if_pos n.value_le, Option.pure_def]

theorem head?_body : h.body.head?.any isBlank = false := by
  rw [body, numberText]
  cases h.number with
  | none =>
    rw [Option.map_none, Option.getD_none, List.nil_append, h.name.head?_written_append]
    exact h.name.trimmed_written.first
  | some n =>
    rw [Option.map_some, Option.getD_some]
    cases hdigits : decimal n.value with
    | nil =>
      rw [decimal_eq] at hdigits
      exact absurd hdigits Nat.toDigits_ne_nil
    | cons c digits =>
      have hc : c ∈ decimal n.value := hdigits ▸ List.mem_cons_self
      exact isBlank_of_inIdentifier (inIdentifier_of_mem_decimal hc)

theorem head?_keyword_append (rest : Text) : (h.keyword ++ rest).head?.any isBlank = false := by
  cases hk : h.keyword with
  | nil =>
    have hstart := h.keyword_start
    rw [hk] at hstart
    cases hstart
  | cons c word =>
    have hc := h.keyword_chars c (hk ▸ List.mem_cons_self)
    exact isBlank_of_inIdentifier (inIdentifier_of_isAlphanum hc)

theorem isProcedureWord_keyword : isProcedureWord h.keyword = false := by
  rw [isProcedureWord, Bool.or_eq_false_iff, Bool.eq_false_iff, Bool.eq_false_iff, Ne, Ne,
    sameWord_iff, sameWord_iff]
  exact h.keyword_ne

end WrittenObject

/-- **A written header is read back** whole. -/
theorem ObjectHeader.read?_written (h : WrittenObject) :
    ObjectHeader.read? h.written = some h.header := by
  have hleft : trimLeft h.code = h.keyword ++ (h.gap.text ++ h.body) := by
    rw [WrittenObject.code, trimLeft_blanks_append h.indent.blank,
      trimLeft_eq_self (h.head?_keyword_append _)]
  have hword := word?_append h.keyword_start h.keyword_chars (h.gap.head h.body)
  rw [ObjectHeader.read?, h.stripComment_written, hleft, hword]
  simp only [Option.bind_eq_bind, Option.bind_some, h.gap.blankRun_append h.head?_body,
    h.headerBody?_body, h.isProcedureWord_keyword, Bool.false_eq_true, if_false]
  rfl

/-- **The kind, the number and the name of a written header are read back**, whatever the name
holds, and a relation of the written kind exactly when one was written. -/
theorem ObjectHeader.read?_writtenObject (h : WrittenObject) :
    ∃ header, ObjectHeader.read? h.written = some header ∧
      header.keyword = h.keyword ∧ header.kind = .ofWord h.keyword ∧
      header.number = h.number.map WrittenNumber.value ∧ header.name = h.name.value ∧
      header.relation.map Relation.kind = h.relation.map WrittenRelation.kind := by
  refine ⟨h.header, ObjectHeader.read?_written h, rfl, rfl, rfl, rfl, ?_⟩
  rw [WrittenObject.header, Option.map_map]
  rfl

example :
    ObjectHeader.read? "codeunit 50100 \"Sales // \x7bMgt\x7d\" implements ILog \x7b // facade" =
      some ⟨"codeunit", some 50100, "Sales // \x7bMgt\x7d", some ⟨.implementing, "ILog"⟩⟩ := by
  decide +kernel

end DocAudit
