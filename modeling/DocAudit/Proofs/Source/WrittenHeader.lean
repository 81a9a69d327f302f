import DocAudit.Proofs.Source.WrittenName

/-!
# Headers as they are written

A procedure header is written on one line and read back.

    local procedure "Do ""it"""(var Line: Record "Sales Line" temporary; Quantity: Decimal): Code[9];

* `WrittenType`, `WrittenParameter`, `WrittenReturn`, `WrittenHeader`: what can be written.
* `ParameterClause.readAll_writtenParameters`: the parameters are read back.
* `WrittenReturn.read?_written`: the return clause is read back.
* `ProcedureHeader.read?_writtenHeader`: the whole header is.
-/

namespace DocAudit

/-! ## What can be written -/

/-- A type, which stands on one line, leaves nothing open, holds no separator at top level and no
comment, and does not end with the word that marks a parameter as temporary. -/
structure WrittenType where
  text : Text
  ne_nil : text ≠ []
  trim_eq : trim text = text
  oneLine : '\n' ∉ text
  closed : ({} : Nesting).after? text = some {}
  hides : ({} : Nesting).Hides ';' text
  commentFree : CommentFree .outside text
  notTemporary : ∀ before c word, text = before ++ c :: word → isBlank c = true →
    lower word ≠ ("temporary" : Text)

/-- A parameter. -/
structure WrittenParameter where
  byReference : Bool
  name : WrittenName
  type : WrittenType
  temporary : Bool

/-- A return clause. -/
structure WrittenReturn where
  name : Option WrittenName
  type : WrittenType

/-- A procedure header. -/
structure WrittenHeader where
  access : Option Access
  /-- There is no word for procedures that everyone may call. -/
  access_ne : access ≠ some .everywhere
  kind : ProcedureKind
  name : WrittenName
  parameters : List WrittenParameter
  returns : Option WrittenReturn
  /-- Whether a semicolon ends the line. -/
  semicolon : Bool

/-- The word for an access level. -/
def Access.word : Access → Text
  | .withinApp => "internal"
  | .withinObject => "local"
  | .withinFamily => "protected"
  | .everywhere => "public"

namespace WrittenParameter

/-- The name with its `var`. -/
def nameText (p : WrittenParameter) : Text :=
  (if p.byReference then ("var " : Text) else []) ++ p.name.written

/-- The type with its `temporary`. -/
def typeText (p : WrittenParameter) : Text :=
  p.type.text ++ if p.temporary then (" temporary" : Text) else []

/-- The parameter as it is written. -/
def written (p : WrittenParameter) : Text := p.nameText ++ ':' :: ' ' :: p.typeText

/-- The parameter as it should be read. -/
def clause (p : WrittenParameter) : ParameterClause where
  name := p.name.value
  dataType := p.typeText
  subtype := subtypeOf? p.type.text
  byReference := p.byReference
  temporary := p.temporary

end WrittenParameter

/-- The parameters as they are written, one after the other. -/
def writtenParameters (ps : List WrittenParameter) : Text :=
  List.intercalate [';', ' '] (ps.map WrittenParameter.written)

namespace WrittenReturn

/-- The return clause as it is written. -/
def written (r : WrittenReturn) : Text :=
  (r.name.map WrittenName.written).getD [] ++ ':' :: ' ' :: r.type.text

/-- The return clause as it should be read. -/
def clause (r : WrittenReturn) : ReturnClause where
  name := r.name.map WrittenName.value
  dataType := r.type.text

end WrittenReturn

namespace WrittenHeader

/-- The words and the name before the parenthesis. -/
def headText (h : WrittenHeader) : Text :=
  (h.access.map fun access => access.word ++ [' ']).getD [] ++
    (h.kind.word ++ ' ' :: h.name.written)

/-- What follows the parentheses. -/
def tailText (h : WrittenHeader) : Text :=
  (h.returns.map fun r => ' ' :: r.written).getD [] ++ if h.semicolon then [';'] else []

/-- The header as it is written. -/
def written (h : WrittenHeader) : Text :=
  h.headText ++ '(' :: (writtenParameters h.parameters ++ ')' :: h.tailText)

end WrittenHeader

/-! ## Types -/

/-- A word without `s` and `k` is folded as ASCII. -/
theorem lower_of_readFolded {word t seen after : Text} (h : readFolded word t = some (seen, after))
    (hw : 's' ∉ word ∧ 'k' ∉ word) : lower seen = word := by
  obtain ⟨rfl, -⟩ := readFolded_eq_some_iff.1 h
  refine List.map_congr_left fun c hc => ?_
  have hmem : foldCase c ∈ seen.map foldCase := List.mem_map_of_mem hc
  rw [foldCase] at hmem ⊢
  by_cases hs : c = '\u017f'
  · rw [if_pos hs] at hmem
    exact absurd hmem hw.1
  · rw [if_neg hs] at hmem ⊢
    by_cases hk : c = '\u212a'
    · rw [if_pos hk] at hmem
      exact absurd hmem hw.2
    · rw [if_neg hk]

/-- A type that is read as temporary ends with the word after a blank. -/
theorem exists_of_beforeTemporary? {t base : Text} (h : beforeTemporary? t = some base) :
    ∃ before c word, t = before ++ c :: word ∧ isBlank c = true ∧
      lower word = ("temporary" : Text) := by
  simp only [beforeTemporary?, Option.bind_eq_bind, Option.bind_eq_some_iff] at h
  obtain ⟨⟨seen, rest⟩, hread, h⟩ := h
  rw [List.length_take_of_le (Nat.sub_le _ _)] at hread
  split at h
  · next hcond =>
    simp only [Bool.and_eq_true, List.isEmpty_iff] at hcond
    obtain ⟨⟨rfl, hblank⟩, -⟩ := hcond
    have hsplit := List.take_append_drop (t.length - ("temporary" : Text).length) t
    cases hlast : (t.take (t.length - ("temporary" : Text).length)).getLast? with
    | none =>
      rw [hlast] at hblank
      cases hblank
    | some c =>
      rw [hlast] at hblank
      obtain ⟨before, hbefore⟩ := List.getLast?_eq_some_iff.1 hlast
      refine ⟨before, c, seen, ?_, hblank, lower_of_readFolded hread (by decide)⟩
      rw [hbefore, readFolded_eq hread, List.append_nil, List.append_assoc] at hsplit
      exact hsplit.symm
  · cases h

/-- A type with the word after it is read as the type before it. -/
theorem beforeTemporary?_append {t : Text} (ht : Trimmed t) (hline : '\n' ∉ t) :
    beforeTemporary? (t ++ (" temporary" : Text)) = some t := by
  have hword : (" temporary" : Text) = [' '] ++ ("temporary" : Text) := rfl
  have htake : (t ++ (" temporary" : Text)).take
      ((t ++ (" temporary" : Text)).length - ("temporary" : Text).length) = t ++ [' '] := by
    rw [hword, ← List.append_assoc, List.length_append, Nat.add_sub_cancel]
    exact List.take_left
  have hdrop : (t ++ (" temporary" : Text)).drop (t ++ [' ']).length = ("temporary" : Text) := by
    rw [hword, ← List.append_assoc]
    exact List.drop_left
  have hread : readFolded ("temporary" : Text) ("temporary" : Text) =
      some (("temporary" : Text), []) := by
    have h := @readFolded_self ("temporary" : Text) (by decide) []
    rwa [List.append_nil] at h
  have hblank : allBlank [' '] = true := by decide
  have hone : (trimRight (t ++ [' '])).all (· ≠ '\n') = true := by
    rw [trimRight_append hblank, trimRight_eq_self ht.last, List.all_eq_true]
    intro c hc
    exact decide_eq_true fun hn => hline (by rwa [← hn])
  simp only [beforeTemporary?, htake, hdrop, hread, hone, Option.bind_eq_bind, Option.bind_some,
    List.getLast?_concat, Option.any_some, List.isEmpty_nil, Bool.and_true, Bool.true_and,
    ht.trim_append_blanks hblank]
  exact if_pos (by decide)

namespace WrittenType

variable (w : WrittenType)

theorem trimmed : Trimmed w.text := .of_trim_eq w.trim_eq w.ne_nil

theorem passable : Passable w.text := ⟨w.closed, w.commentFree⟩

theorem beforeTemporary?_text : beforeTemporary? w.text = none := by
  refine Option.eq_none_iff_forall_ne_some.2 fun base hbase => ?_
  obtain ⟨before, c, word, heq, hc, hword⟩ := exists_of_beforeTemporary? hbase
  exact w.notTemporary before c word heq hc hword

end WrittenType

/-! ## Parameters -/

namespace WrittenParameter

variable (p : WrittenParameter)

theorem trimmed_nameText : Trimmed p.nameText := by
  rw [nameText]
  cases p.byReference with
  | false => exact p.name.trimmed_written
  | true =>
    have hvar : Trimmed ("var" : Text) := ⟨by decide, by decide, by decide⟩
    exact hvar.append [' '] p.name.trimmed_written

theorem trimmed_typeText : Trimmed p.typeText := by
  rw [typeText]
  cases p.temporary with
  | false =>
    rw [if_neg Bool.false_ne_true, List.append_nil]
    exact p.type.trimmed
  | true =>
    have hword : Trimmed ("temporary" : Text) := ⟨by decide, by decide, by decide⟩
    exact p.type.trimmed.append [' '] hword

theorem trimmed_written : Trimmed p.written :=
  p.trimmed_nameText.append [':', ' '] p.trimmed_typeText

theorem head?_written_ne : p.written.head? ≠ some '/' := by
  rw [written, nameText]
  cases p.byReference with
  | false =>
    rw [if_neg Bool.false_ne_true, List.nil_append]
    obtain ⟨c, rest, heq⟩ := List.exists_cons_of_ne_nil p.name.trimmed_written.ne_nil
    have hc := @WrittenName.head?_written_ne '/' p.name (by decide) (by decide)
    rw [heq] at hc ⊢
    exact hc
  | true => exact fun hhead => absurd (Option.some.inj hhead) (by decide)

theorem isWords_var (b : Bool) : IsWords (if b then ("var " : Text) else []) := by
  cases b <;> unfold IsWords <;> decide

theorem isWords_temporary (b : Bool) : IsWords (if b then (" temporary" : Text) else []) := by
  cases b <;> unfold IsWords <;> decide

theorem passable_nameText : Passable p.nameText :=
  (isWords_var _).passable.append p.name.passable_written
    (p.name.head?_written_ne (by decide) (by decide))

theorem hides_nameText {d : Char} (hd : inIdentifier d = false) (hplain : isDelimiter d = false)
    (hblank : d ≠ ' ') : ({} : Nesting).Hides d p.nameText :=
  ((isWords_var _).hides hd hblank).append (isWords_var _).passable.after?_eq
    (p.name.hides_written hd hplain)

theorem passable_typeText : Passable p.typeText := by
  refine p.type.passable.append (isWords_temporary _).passable ?_
  cases p.temporary <;> decide

theorem hides_typeText : ({} : Nesting).Hides ';' p.typeText :=
  p.type.hides.append p.type.closed ((isWords_temporary _).hides (by decide) (by decide))

theorem passable_written : Passable p.written :=
  p.passable_nameText.append
    (.cons_plain (by decide) (by decide) (.cons_plain (by decide) (by decide) p.passable_typeText))
    (by simp)

theorem hides_written : ({} : Nesting).Hides ';' p.written := by
  have hcolon : ({} : Nesting).Hides ';' [':', ' '] := Nesting.hides_of_not_mem (by decide)
  refine (p.hides_nameText (by decide) (by decide) (by decide)).append
    p.passable_nameText.after?_eq ?_
  exact hcolon.append rfl p.hides_typeText

theorem afterVar?_nameText :
    afterVar? p.nameText = if p.byReference then some p.name.written else none := by
  rw [nameText]
  cases p.byReference with
  | false => exact p.name.afterVar?_written
  | true =>
    have hread := @readFolded_self ("var" : Text) (by decide) (' ' :: p.name.written)
    have hrun : blankRun (' ' :: p.name.written) = some p.name.written := by
      rw [blankRun, if_pos (by decide), p.name.trimmed_written.trimLeft_eq]
    have hname : (p.name.written.isEmpty || p.name.written.any (· = '\n')) = false := by
      rw [Bool.or_eq_false_iff, List.isEmpty_eq_false_iff, List.any_eq_false]
      refine ⟨p.name.trimmed_written.ne_nil, fun c hc hn => p.name.oneLine_written ?_⟩
      rwa [← of_decide_eq_true hn]
    show afterVar? (("var" : Text) ++ ' ' :: p.name.written) = some p.name.written
    rw [afterVar?, hread]
    simp only [Option.bind_eq_bind, Option.bind_some, hrun, hname]
    rfl

theorem of_written : ParameterClause.of p.nameText p.typeText = p.clause := by
  have hname : unquote ((afterVar? p.nameText).getD p.nameText) = p.name.value := by
    rw [afterVar?_nameText, nameText]
    cases p.byReference <;> exact p.name.unquote_written
  have htype : beforeTemporary? p.typeText = if p.temporary then some p.type.text else none := by
    rw [typeText]
    cases p.temporary with
    | false =>
      rw [if_neg Bool.false_ne_true, List.append_nil]
      exact p.type.beforeTemporary?_text
    | true => exact beforeTemporary?_append p.type.trimmed p.type.oneLine
  have hbase : (beforeTemporary? p.typeText).getD p.typeText = p.type.text := by
    rw [htype, typeText]
    cases p.temporary with
    | false => exact List.append_nil _
    | true => rfl
  have hreference : (afterVar? p.nameText).isSome = p.byReference := by
    rw [afterVar?_nameText]
    cases p.byReference <;> rfl
  have htemporary : (beforeTemporary? p.typeText).isSome = p.temporary := by
    rw [htype]
    cases p.temporary <;> rfl
  rw [ParameterClause.of, hname, hbase, hreference, htemporary, clause]

/-- A written parameter is read back, with blanks in front or not. -/
theorem read?_written {indent : Text} (hi : allBlank indent = true) :
    ParameterClause.read? (indent ++ p.written) = some p.clause := by
  have hname := pieces_append_of_passable p.passable_nameText
    (p.hides_nameText (d := ':') (by decide) (by decide) (by decide)) (by decide)
    (' ' :: p.typeText)
  have hsplit : splitTopLevel ':' p.written =
      p.nameText :: pieces ':' .outside 0 (' ' :: p.typeText) := by
    rw [splitTopLevel, written, hname, List.all_cons, p.trimmed_nameText.allBlank_eq_false]
    rfl
  have hrest : p.written.drop (p.nameText.length + 1) = [' '] ++ p.typeText := by
    rw [written, ← List.drop_drop, List.drop_left]
    rfl
  rw [ParameterClause.read?, p.trimmed_written.trim_append hi, hsplit]
  simp only [hrest, p.trimmed_nameText.trim_eq]
  rw [p.trimmed_typeText.trim_append (by decide), of_written]

end WrittenParameter

/-! ## Lists of parameters -/

theorem writtenParameters_cons_cons (p q : WrittenParameter) (ps : List WrittenParameter) :
    writtenParameters (p :: q :: ps) =
      p.written ++ ';' :: ([' '] ++ writtenParameters (q :: ps)) := by
  simp only [writtenParameters, List.map_cons, List.intercalate_cons_cons, List.append_assoc,
    List.cons_append, List.nil_append]

theorem trimmed_writtenParameters (p : WrittenParameter) (ps : List WrittenParameter) :
    Trimmed (writtenParameters (p :: ps)) := by
  induction ps generalizing p with
  | nil =>
    rw [writtenParameters, List.map_singleton, List.intercalate_singleton]
    exact p.trimmed_written
  | cons q ps ih =>
    rw [writtenParameters_cons_cons]
    exact p.trimmed_written.append [';', ' '] (ih q)

theorem trim_writtenParameters (ps : List WrittenParameter) :
    trim (writtenParameters ps) = writtenParameters ps := by
  cases ps with
  | nil => rfl
  | cons p ps => exact (trimmed_writtenParameters p ps).trim_eq

theorem passable_writtenParameters (ps : List WrittenParameter) :
    Passable (writtenParameters ps) := by
  induction ps with
  | nil => exact .of_plain (by decide)
  | cons p ps ih =>
    cases ps with
    | nil =>
      rw [writtenParameters, List.map_singleton, List.intercalate_singleton]
      exact p.passable_written
    | cons q ps =>
      rw [writtenParameters_cons_cons]
      exact p.passable_written.append
        (.cons_plain (by decide) (by decide) (.cons_plain (by decide) (by decide) ih)) (by simp)

/-- A blank piece is no parameter. -/
theorem ParameterClause.read?_of_allBlank {piece : Text} (h : allBlank piece = true) :
    ParameterClause.read? piece = none := by
  rw [ParameterClause.read?, trim_eq_nil h]
  rfl

/-- The parameters of a list are those of its pieces. -/
theorem ParameterClause.readAll_eq (list : Text) :
    ParameterClause.readAll list =
      (pieces ';' .outside 0 list).filterMap ParameterClause.read? := by
  rw [ParameterClause.readAll, splitTopLevel]
  split
  · next hblank =>
    symm
    exact List.filterMap_eq_nil_iff.2 fun piece hp =>
      ParameterClause.read?_of_allBlank (List.all_eq_true.1 hblank piece hp)
  · rfl

/-- The pieces of a written list are its parameters, each with or without blanks in front. -/
theorem filterMap_pieces_writtenParameters (ps : List WrittenParameter) {indent : Text}
    (hi : allBlank indent = true) (hwords : IsWords indent) :
    (pieces ';' .outside 0 (indent ++ writtenParameters ps)).filterMap ParameterClause.read? =
      ps.map WrittenParameter.clause := by
  induction ps generalizing indent with
  | nil =>
    rw [writtenParameters, List.map_nil, List.intercalate_nil, List.append_nil,
      pieces_of_passable hwords.passable (hwords.hides (by decide) (by decide)),
      List.filterMap_cons, ParameterClause.read?_of_allBlank hi]
    rfl
  | cons p ps ih =>
    have hpassable : Passable (indent ++ p.written) :=
      hwords.passable.append p.passable_written p.head?_written_ne
    have hhides : ({} : Nesting).Hides ';' (indent ++ p.written) :=
      (hwords.hides (by decide) (by decide)).append hwords.passable.after?_eq p.hides_written
    cases ps with
    | nil =>
      rw [writtenParameters, List.map_singleton, List.intercalate_singleton,
        pieces_of_passable hpassable hhides, List.filterMap_cons, p.read?_written hi]
      rfl
    | cons q ps =>
      have hblank : IsWords [' '] := by
        unfold IsWords
        decide
      rw [writtenParameters_cons_cons, ← List.append_assoc,
        pieces_append_of_passable hpassable hhides (by decide), List.filterMap_cons,
        p.read?_written hi]
      simp only
      rw [ih (by decide) hblank]
      rfl

/-- **A written list of parameters is read back.** -/
theorem ParameterClause.readAll_writtenParameters (ps : List WrittenParameter) :
    ParameterClause.readAll (writtenParameters ps) = ps.map WrittenParameter.clause := by
  rw [ParameterClause.readAll_eq]
  exact filterMap_pieces_writtenParameters ps rfl fun c hc => absurd hc List.not_mem_nil

/-! ## Return clauses -/

namespace WrittenReturn

variable (r : WrittenReturn)

theorem trimmed_written : Trimmed r.written := by
  rw [written]
  cases r.name with
  | none =>
    have hcolon : Trimmed [':'] := ⟨by decide, by decide, by decide⟩
    exact hcolon.append [' '] r.type.trimmed
  | some n => exact n.trimmed_written.append [':', ' '] r.type.trimmed

theorem returnType?_written : returnType? (':' :: ' ' :: r.type.text) = some r.type.text := by
  have hleft : trimLeft (' ' :: r.type.text) = r.type.text := by
    rw [trimLeft, List.dropWhile_cons_of_pos (by decide), ← trimLeft, r.type.trimmed.trimLeft_eq]
  have hone : r.type.text.all (· ≠ '\n') = true := by
    rw [List.all_eq_true]
    intro c hc
    exact decide_eq_true fun hn => r.type.oneLine (by rwa [← hn])
  have htrim : trim (' ' :: r.type.text) = r.type.text :=
    r.type.trimmed.trim_append (show allBlank [' '] = true by decide)
  rw [returnType?, hleft, if_pos ⟨rfl, r.type.ne_nil, hone⟩, htrim]

/-- **A written return clause is read back.** -/
theorem read?_written : ReturnClause.read? r.written = some r.clause := by
  have htype := r.returnType?_written
  rw [ReturnClause.read?, r.trimmed_written.trim_eq, written, clause]
  cases r.name with
  | none =>
    have hname : name? (':' :: ' ' :: r.type.text) = none := rfl
    simp only [Option.map_none, Option.getD_none, List.nil_append, hname, htype, Option.map_some]
  | some n =>
    have hname : name? (n.written ++ ':' :: ' ' :: r.type.text) =
        some (n.written, ':' :: ' ' :: r.type.text) := n.name?_written (by decide) (by decide) _
    have hleft : trimLeft (':' :: ' ' :: r.type.text) = ':' :: ' ' :: r.type.text := rfl
    simp only [Option.map_some, Option.getD_some, hname, hleft, htype, n.unquote_written]

theorem passable_written : Passable r.written := by
  have hcolon : Passable (':' :: ' ' :: r.type.text) :=
    .cons_plain (by decide) (by decide) (.cons_plain (by decide) (by decide) r.type.passable)
  rw [written]
  cases r.name with
  | none => exact hcolon
  | some n => exact n.passable_written.append hcolon (by simp)

theorem hides_written : ({} : Nesting).Hides ';' r.written := by
  have hcolon : ({} : Nesting).Hides ';' ([':', ' '] ++ r.type.text) :=
    (Nesting.hides_of_not_mem (by decide)).append rfl r.type.hides
  rw [written]
  cases r.name with
  | none => exact hcolon
  | some n =>
    exact (n.hides_written (by decide) (by decide)).append n.passable_written.after?_eq hcolon

end WrittenReturn

/-! ## Headers -/

theorem Access.word_modifier {a : Access} (ha : a ≠ .everywhere) :
    a.word ∈ modifierWords ∧ (∀ c ∈ a.word, foldCase c = c) ∧
      (∀ w ∈ modifierWords, w ≠ a.word → readFolded (w.take a.word.length) a.word = none) ∧
      Access.ofWord? a.word = some a := by
  cases a with
  | withinApp => decide +kernel
  | withinObject => decide +kernel
  | withinFamily => decide +kernel
  | everywhere => exact absurd rfl ha

theorem ProcedureKind.word_keyword (k : ProcedureKind) :
    k.word ∈ procedureWords.map (·.1) ∧ (∀ c ∈ k.word, foldCase c = c) ∧
      (∀ w ∈ procedureWords.map (·.1), w ≠ k.word →
        readFolded (w.take k.word.length) k.word = none) ∧
      (∀ w ∈ modifierWords, readFolded (w.take k.word.length) k.word = none) ∧
      procedureWords.lookup k.word = some k := by
  cases k <;> decide +kernel

theorem Access.trimmed_word (a : Access) : Trimmed a.word := by
  cases a <;> exact ⟨by decide, by decide, by decide⟩

theorem ProcedureKind.trimmed_word (k : ProcedureKind) : Trimmed k.word := by
  cases k <;> exact ⟨by decide, by decide, by decide⟩

theorem Access.isWords_word (a : Access) : IsWords (a.word ++ [' ']) := by
  cases a <;> unfold IsWords <;> decide

theorem ProcedureKind.isWords_word (k : ProcedureKind) : IsWords (k.word ++ [' ']) := by
  cases k <;> unfold IsWords <;> decide

namespace WrittenHeader

variable (h : WrittenHeader)

theorem trimmed_headText : Trimmed h.headText := by
  have hkind : Trimmed (h.kind.word ++ ' ' :: h.name.written) :=
    h.kind.trimmed_word.append [' '] h.name.trimmed_written
  rw [headText]
  cases h.access with
  | none => exact hkind
  | some a =>
    rw [Option.map_some, Option.getD_some, List.append_assoc]
    exact a.trimmed_word.append [' '] hkind

theorem passable_headText : Passable h.headText := by
  have hkind : Passable (h.kind.word ++ ' ' :: h.name.written) := by
    rw [List.append_cons]
    exact h.kind.isWords_word.passable.append h.name.passable_written
      (h.name.head?_written_ne (by decide) (by decide))
  rw [headText]
  cases h.access with
  | none => exact hkind
  | some a =>
    refine a.isWords_word.passable.append hkind ?_
    cases h.kind <;> exact fun hhead => absurd (Option.some.inj hhead) (by decide)

theorem readModifier_headText (rest : Text) :
    readModifier (trimLeft (h.headText ++ rest)) =
      (h.access, h.kind.word ++ ' ' :: (h.name.written ++ rest)) := by
  obtain ⟨-, -, -, hmodifier, -⟩ := h.kind.word_keyword
  rw [h.trimmed_headText.trimLeft_append, headText]
  cases hac : h.access with
  | none =>
    rw [Option.map_none, Option.getD_none, List.nil_append, List.append_assoc, List.cons_append,
      readModifier, keyword?_append_eq_none hmodifier]
  | some a =>
    have ha : a ≠ .everywhere := fun he => h.access_ne (by rw [hac, he])
    obtain ⟨hmem, hself, hother, hword⟩ := Access.word_modifier ha
    rw [Option.map_some, Option.getD_some, List.append_assoc, List.append_assoc, List.append_assoc,
      List.cons_append, List.nil_append, readModifier, keyword?_self hmem hself hother]
    simp only [hword, h.kind.trimmed_word.trimLeft_append, List.cons_append]

/-- The reader of heads takes the words and the name. -/
theorem read?_headText (rest : Text) :
    ProcedureHead.read? (h.headText ++ '(' :: rest) =
      some ({ access := h.access, kind := h.kind, writtenName := h.name.written }, rest) := by
  obtain ⟨hmem, hself, hother, -, hlookup⟩ := h.kind.word_keyword
  have hmodifier := h.readModifier_headText ('(' :: rest)
  refine ProcedureHead.read?_eq_some_iff.2
    ⟨h.kind.word, h.kind.word, h.name.written ++ '(' :: rest, '(' :: rest, ?_, hlookup,
      h.name.name?_written (by decide) (by decide) rest, rfl, ?_⟩
  · rw [hmodifier, keyword?_self hmem hself hother, h.name.trimmed_written.trimLeft_append]
  · rw [hmodifier]

theorem passable_tailText : Passable h.tailText := by
  have hreturns : Passable ((h.returns.map fun r => ' ' :: r.written).getD []) := by
    cases h.returns with
    | none => exact .of_plain (by decide)
    | some r => exact .cons_plain (by decide) (by decide) r.passable_written
  refine hreturns.append ?_ ?_
  · cases h.semicolon <;> exact .of_plain (by decide)
  · cases h.semicolon <;> decide

theorem dropSemicolon_tailText :
    dropSemicolon h.tailText = (h.returns.map WrittenReturn.written).getD [] := by
  rw [tailText]
  cases h.returns with
  | none => cases h.semicolon <;> rfl
  | some r =>
    have hblank : allBlank [' '] = true := by decide
    cases h.semicolon with
    | false =>
      have htrim : trim (' ' :: r.written) = r.written := r.trimmed_written.trim_append hblank
      have hlast := getLast?_ne_of_hides r.passable_written r.hides_written (by decide)
      simp only [Option.map_some, Option.getD_some, Bool.false_eq_true, if_false, List.append_nil]
      rw [dropSemicolon, htrim, if_neg hlast]
    | true =>
      have hsemicolon : Trimmed [';'] := ⟨by decide, by decide, by decide⟩
      have htrim : trim (' ' :: (r.written ++ [';'])) = r.written ++ [';'] :=
        (r.trimmed_written.append [] hsemicolon).trim_append hblank
      simp only [Option.map_some, Option.getD_some, if_true, List.cons_append]
      rw [dropSemicolon, htrim, List.getLast?_concat, if_pos rfl, List.dropLast_concat,
        r.trimmed_written.trim_eq]

theorem returnText?_tailText :
    returnText? h.tailText = h.returns.map WrittenReturn.written := by
  rw [returnText?, dropSemicolon_tailText]
  cases h.returns with
  | none => rfl
  | some r =>
    simp only [Option.map_some, Option.getD_some, r.read?_written, Option.isSome_some, if_true]

theorem commentFree_written : CommentFree .outside h.written := by
  have hparameters := passable_writtenParameters h.parameters
  have hclose : CommentFree .outside (')' :: h.tailText) :=
    commentFree_cons.2 ⟨fun hc => absurd hc.2.1 (by decide), h.passable_tailText.commentFree⟩
  have hinside : CommentFree .outside (writtenParameters h.parameters ++ ')' :: h.tailText) :=
    hparameters.commentFree.append (by rwa [hparameters.quoting]) (by simp)
  have hopen : CommentFree .outside
      ('(' :: (writtenParameters h.parameters ++ ')' :: h.tailText)) :=
    commentFree_cons.2 ⟨fun hc => absurd hc.2.1 (by decide), hinside⟩
  exact h.passable_headText.commentFree.append (by rwa [h.passable_headText.quoting]) (by simp)

end WrittenHeader

/-- **A written header is read back**: its words, its name, its parameters and its return clause. -/
theorem ProcedureHeader.read?_writtenHeader (h : WrittenHeader) :
    ∃ header, ProcedureHeader.read? h.written = some header ∧
      header.access = h.access ∧ header.kind = h.kind ∧ header.name = h.name.value ∧
      header.parameters = h.parameters.map WrittenParameter.clause ∧
      header.returns = h.returns.map WrittenReturn.clause := by
  refine ⟨⟨h.access, h.kind, h.name.value, writtenParameters h.parameters,
    h.returns.map WrittenReturn.written⟩, ?_, rfl, rfl, rfl,
    ParameterClause.readAll_writtenParameters h.parameters, ?_⟩
  · have hcode : stripComment h.written = h.written :=
      stripCommentFrom_eq_self h.commentFree_written
    rw [ProcedureHeader.read?, hcode, WrittenHeader.written, h.read?_headText]
    simp only [Option.bind_eq_bind, Option.bind_some,
      closeParenthesis_of_passable (passable_writtenParameters h.parameters),
      trim_writtenParameters, h.returnText?_tailText, h.name.unquote_written]
    rfl
  · rw [ProcedureHeader.returns]
    cases h.returns with
    | none => rfl
    | some r => exact r.read?_written

/-- A text that does not end with `y` does not end with `temporary`. -/
theorem notTemporary_of_getLast? {t : Text} (h : t.getLast?.map Char.toLower ≠ some 'y')
    (before : Text) (c : Char) (word : Text) (heq : t = before ++ c :: word)
    (_ : isBlank c = true) : lower word ≠ ("temporary" : Text) := by
  intro hword
  have hne : word ≠ [] := by
    rintro rfl
    cases hword
  refine h ?_
  rw [heq, List.append_cons, List.getLast?_append, List.getLast?_eq_some_getLast hne,
    Option.some_or, ← List.getLast?_eq_some_getLast hne, ← List.getLast?_map, ← lower, hword]
  rfl

/-- A header with separators, brackets and comment marks in its names and types. -/
def crowdedHeader : WrittenHeader where
  access := some .withinObject
  access_ne := by decide
  kind := .procedure
  name := .quoted "Do; \"it\"(//)" (by decide) (by decide)
  parameters := [
    { byReference := true
      name := .identifier "Line" (by decide)
      type := {
        text := "Record \"A: B)\""
        ne_nil := by decide
        trim_eq := by decide
        oneLine := by decide
        closed := by decide
        hides := by decide
        commentFree := by decide
        notTemporary := notTemporary_of_getLast? (by decide) }
      temporary := true }]
  returns := none
  semicolon := true

example : crowdedHeader.written =
    ("local procedure \"Do; \"\"it\"\"(//)\"(var Line: Record \"A: B)\" temporary);" : Text) := by
  rfl

end DocAudit
