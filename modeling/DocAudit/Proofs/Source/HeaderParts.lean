import DocAudit.Proofs.Source.Subset
import DocAudit.Proofs.Source.WrittenHeader

/-!
# The parts of a procedure header

Every line that is read as a procedure header, however it is laid out, is made of the parts that
the header tells of.

    Internal  PROCEDURE "Post ""all"" (" ( var Line: Record "A)" ) Ok : Boolean ; // )

* `Balanced`: parentheses outside quotes that match.
* `SpellsAccess`, `IsReturnClause`, `TrailingClause`: the words before and after the parameters.
* `SpellsHead`, `ProcedureHead.exists_spellsHead`: the text before the opening parenthesis.
* `HeaderParts`: a line cut into its parts.
* `HeaderParts.Fit`: what the parts say about the header.
* `ProcedureHeader.exists_parts`: a line with a header is made of parts that fit it.
-/

namespace DocAudit

/-! ## Parts -/

/-- How often a character stands outside quotes in a text, for a reader at `q`. -/
def countOutside (mark : Char) (q : Quoting) : Text → Nat
  | [] => 0
  | c :: rest => (if q = .outside ∧ c = mark then 1 else 0) + countOutside mark (q.step c) rest

/-- Outside quotes a text closes every parenthesis it opens, and none before it opens it. No quote
is open at its end. -/
structure Balanced (t : Text) : Prop where
  total : countOutside ')' .outside t = countOutside '(' .outside t
  prefixes : ∀ s, s <+: t → countOutside ')' .outside s ≤ countOutside '(' .outside s
  quotes : Quoting.outside.after t = .outside

/-- A text spells an access level: its word in any case and blanks, or nothing for a header that has
no such word. -/
inductive SpellsAccess : Text → Option Access → Prop
  | absent : SpellsAccess [] none
  | word {written gap : Text} {a : Access} (ha : a ≠ .everywhere)
      (hword : lower written = a.word) (hgap : IsGap gap) : SpellsAccess (written ++ gap) (some a)

/-- A text spells a head up to its parenthesis: an access word or none, the word for the kind and a
name, with blanks around them. -/
inductive SpellsHead : Text → ProcedureHead → Prop
  | intro {indent access keyword gap written name gapAfterName : Text} {level : Option Access}
      {kind : ProcedureKind} (hindent : allBlank indent = true)
      (haccess : SpellsAccess access level) (hkeyword : lower keyword = kind.word)
      (hgap : IsGap gap) (hname : Spells written name) (hafter : allBlank gapAfterName = true) :
      SpellsHead (indent ++ (access ++ (keyword ++ (gap ++ (written ++ gapAfterName)))))
        { access := level, kind, writtenName := written }

/-- `: Type` or `Name: Type`, where the type is not blank. -/
inductive IsReturnClause : Text → Prop
  | unnamed {type : Text} (htype : allBlank type = false) : IsReturnClause (':' :: type)
  | named {written name gap type : Text} (hname : Spells written name)
      (hgap : allBlank gap = true) (htype : allBlank type = false) :
      IsReturnClause (written ++ (gap ++ ':' :: type))

/-- What stands in a text without the blanks around it, and without one semicolon at its end. -/
inductive TrailingClause (after : Text) : Text → Prop
  | plain (h : (trim after).getLast? ≠ some ';') : TrailingClause after (trim after)
  | semicolon {t : Text} (h : trim after = t ++ [';']) : TrailingClause after (trim t)

/-- A header line without its comment, cut into parts. -/
structure HeaderParts where
  indent : Text
  /-- The access word and the blanks behind it. -/
  access : Text
  keyword : Text
  gap : Text
  /-- The name as it is written. -/
  name : Text
  /-- The blanks before the opening parenthesis. -/
  gapAfterName : Text
  /-- The text between the parentheses. -/
  inside : Text
  /-- The text after the closing parenthesis. -/
  after : Text

namespace HeaderParts

/-- The text before the opening parenthesis. -/
def head (p : HeaderParts) : Text :=
  p.indent ++ (p.access ++ (p.keyword ++ (p.gap ++ (p.name ++ p.gapAfterName))))

/-- The line without its comment. -/
def code (p : HeaderParts) : Text := p.head ++ '(' :: (p.inside ++ ')' :: p.after)

/-- The parts say what the header says. -/
structure Fit (p : HeaderParts) (h : ProcedureHeader) : Prop where
  indent : allBlank p.indent = true
  access : SpellsAccess p.access h.access
  keyword : lower p.keyword = h.kind.word
  gap : IsGap p.gap
  name : Spells p.name h.name
  gapAfterName : allBlank p.gapAfterName = true
  balanced : Balanced p.inside
  parameterText : h.parameterText = trim p.inside
  returnText : ∃ clause, TrailingClause p.after clause ∧
    ∀ t, h.returnText = some t ↔ t = clause ∧ IsReturnClause clause

end HeaderParts

/-! ## Parentheses -/

section Parentheses

variable {q : Quoting} {depth : Nat} {t inside after : Text}

/-- A text that a reader at `q` passes over, with `depth` parentheses open that it has to close. -/
inductive Encloses : Quoting → Nat → Text → Prop
  | done : Encloses .outside 0 []
  | opens {depth : Nat} {t : Text} (h : Encloses .outside (depth + 1) t) :
      Encloses .outside depth ('(' :: t)
  | closes {depth : Nat} {t : Text} (h : Encloses .outside depth t) :
      Encloses .outside (depth + 1) (')' :: t)
  | other {q : Quoting} {depth : Nat} {c : Char} {t : Text}
      (hc : q = .outside → c ≠ '(' ∧ c ≠ ')') (h : Encloses (q.step c) depth t) :
      Encloses q depth (c :: t)

theorem encloses_of_closeParenthesis (h : closeParenthesis q depth t = some (inside, after)) :
    Encloses q depth inside := by
  induction t generalizing q depth inside with
  | nil => cases h
  | cons c rest ih =>
    rw [closeParenthesis.eq_def] at h
    simp only at h
    by_cases hclose : q = .outside ∧ c = ')'
    · obtain ⟨rfl, rfl⟩ := hclose
      rw [if_pos ⟨rfl, rfl⟩] at h
      -- With nothing else open this is the parenthesis after the text.
      cases depth with
      | zero =>
        cases h
        exact .done
      | succ depth =>
        obtain ⟨⟨i, a⟩, hrest, heq⟩ := Option.map_eq_some_iff.1 h
        cases heq
        exact .closes (ih hrest)
    · rw [if_neg hclose] at h
      obtain ⟨⟨i, a⟩, hrest, heq⟩ := Option.map_eq_some_iff.1 h
      cases heq
      by_cases hopen : q = .outside ∧ c = '('
      · obtain ⟨rfl, rfl⟩ := hopen
        rw [if_pos ⟨rfl, rfl⟩] at hrest
        exact .opens (ih hrest)
      · rw [if_neg hopen] at hrest
        exact .other (fun hq => ⟨fun hc => hopen ⟨hq, hc⟩, fun hc => hclose ⟨hq, hc⟩⟩) (ih hrest)

namespace Encloses

theorem after_eq (h : Encloses q depth t) : q.after t = .outside := by
  induction h with
  | done => rfl
  | opens _ ih => exact ih
  | closes _ ih => exact ih
  | other _ _ ih => exact ih

theorem countOutside_of_other {c mark : Char} (hc : q = .outside → c ≠ mark) (t : Text) :
    countOutside mark q (c :: t) = countOutside mark (q.step c) t := by
  rw [countOutside, if_neg fun h => hc h.1 h.2, Nat.zero_add]

/-- The text closes what it opens and what was open before it. -/
theorem total (h : Encloses q depth t) :
    countOutside ')' q t = countOutside '(' q t + depth := by
  induction h with
  | done => rfl
  | @opens depth t _ ih =>
    have hopen : countOutside '(' .outside ('(' :: t) = 1 + countOutside '(' .outside t := rfl
    have hclose : countOutside ')' .outside ('(' :: t) = countOutside ')' .outside t :=
      countOutside_of_other (by decide) t
    omega
  | @closes depth t _ ih =>
    have hopen : countOutside '(' .outside (')' :: t) = countOutside '(' .outside t :=
      countOutside_of_other (by decide) t
    have hclose : countOutside ')' .outside (')' :: t) = 1 + countOutside ')' .outside t := rfl
    omega
  | other hc _ ih =>
    rw [countOutside_of_other fun hq => (hc hq).1, countOutside_of_other fun hq => (hc hq).2]
    exact ih

/-- At no point has the text closed more than is open. -/
theorem prefixes (h : Encloses q depth t) {s : Text} (hs : s <+: t) :
    countOutside ')' q s ≤ countOutside '(' q s + depth := by
  induction h generalizing s with
  | done =>
    rw [List.prefix_nil.1 hs]
    exact Nat.zero_le _
  | opens _ ih =>
    rcases List.prefix_cons_iff.1 hs with rfl | ⟨s, rfl, hprefix⟩
    · exact Nat.zero_le _
    · have hopen : countOutside '(' .outside ('(' :: s) = 1 + countOutside '(' .outside s := rfl
      have hclose : countOutside ')' .outside ('(' :: s) = countOutside ')' .outside s :=
        countOutside_of_other (by decide) s
      have := ih hprefix
      omega
  | closes _ ih =>
    rcases List.prefix_cons_iff.1 hs with rfl | ⟨s, rfl, hprefix⟩
    · exact Nat.zero_le _
    · have hopen : countOutside '(' .outside (')' :: s) = countOutside '(' .outside s :=
        countOutside_of_other (by decide) s
      have hclose : countOutside ')' .outside (')' :: s) = 1 + countOutside ')' .outside s := rfl
      have := ih hprefix
      omega
  | other hc _ ih =>
    rcases List.prefix_cons_iff.1 hs with rfl | ⟨s, rfl, hprefix⟩
    · exact Nat.zero_le _
    · rw [countOutside_of_other fun hq => (hc hq).1, countOutside_of_other fun hq => (hc hq).2]
      exact ih hprefix

end Encloses

theorem balanced_of_closeParenthesis
    (h : closeParenthesis .outside 0 t = some (inside, after)) : Balanced inside :=
  have hinside := encloses_of_closeParenthesis h
  ⟨hinside.total, fun _ hs => hinside.prefixes hs, hinside.after_eq⟩

end Parentheses

/-! ## Words -/

theorem exists_access_of_mem_modifierWords {word : Text} (h : word ∈ modifierWords) :
    ∃ a : Access, Access.ofWord? word = some a ∧ a ≠ .everywhere ∧ a.word = word := by
  simp only [modifierWords, List.mem_cons, List.not_mem_nil, or_false] at h
  rcases h with rfl | rfl | rfl
  · exact ⟨.withinObject, rfl, by decide, rfl⟩
  · exact ⟨.withinApp, rfl, by decide, rfl⟩
  · exact ⟨.withinFamily, rfl, by decide, rfl⟩

/-- No access word and no word for a procedure has a letter that case folding makes of another
character. -/
theorem plain_of_mem_headWords : ∀ word ∈ modifierWords ++ procedureWords.map (·.1),
    's' ∉ word ∧ 'k' ∉ word := by decide

theorem spellsAccess_readModifier (t : Text) :
    ∃ access, SpellsAccess access (readModifier t).1 ∧ t = access ++ (readModifier t).2 := by
  rw [readModifier]
  cases h : keyword? modifierWords t with
  | none => exact ⟨[], .absent, rfl⟩
  | some found =>
    obtain ⟨word, written, rest⟩ := found
    obtain ⟨hmem, gap, hgap, ht, hread⟩ := exists_of_keyword? h
    obtain ⟨a, ha, hne, hword⟩ := exists_access_of_mem_modifierWords hmem
    have hlower := lower_of_readFolded hread
      (plain_of_mem_headWords word (List.mem_append_left _ hmem))
    refine ⟨written ++ gap, ?_, by rw [ht, List.append_assoc]⟩
    simp only [ha]
    exact .word hne (hlower.trans hword.symm) hgap

theorem word_of_lookup {word : Text} {kind : ProcedureKind}
    (h : procedureWords.lookup word = some kind) : kind.word = word := by
  obtain ⟨before, after, heq, -⟩ := List.lookup_eq_some_iff.1 h
  have hmem : (word, kind) ∈ procedureWords := by
    rw [heq]
    exact List.mem_append_right before List.mem_cons_self
  have hwords : ∀ p ∈ procedureWords, p.2.word = p.1 := by decide
  exact hwords _ hmem

/-- **A head that is read is spelled before its parenthesis**, part by part as the readers take
it. -/
theorem ProcedureHead.exists_spellsHead {t rest : Text} {head : ProcedureHead}
    (h : ProcedureHead.read? t = some (head, rest)) :
    ∃ s, SpellsHead s head ∧ t = s ++ '(' :: rest := by
  obtain ⟨word, keyword, afterKind, afterName, hkeyword, hlookup, hname, hopen, haccess⟩ :=
    ProcedureHead.read?_eq_some_iff.1 h
  obtain ⟨access, hspells, hmodifier⟩ := spellsAccess_readModifier (trimLeft t)
  obtain ⟨hmem, gap, hgap, hkind, hfolded⟩ := exists_of_keyword? hkeyword
  obtain ⟨name, hwritten⟩ := name?_eq_some hname
  have hword := lower_of_readFolded hfolded
    (plain_of_mem_headWords word (List.mem_append_right _ hmem))
  refine ⟨_, .intro (allBlank_indentOf t) (haccess ▸ hspells)
    (hword.trans (word_of_lookup hlookup).symm) hgap hwritten (allBlank_indentOf afterName), ?_⟩
  calc t
      = indentOf t ++ trimLeft t := (indentOf_append_trimLeft t).symm
    _ = indentOf t ++ (access ++ (keyword ++ (gap ++ afterKind))) := by rw [hmodifier, hkind]
    _ = indentOf t ++ (access ++ (keyword ++ (gap ++ (head.writtenName ++ afterName)))) := by
      rw [name?_eq hname]
    _ = indentOf t ++ (access ++ (keyword ++ (gap ++ (head.writtenName ++ (indentOf afterName ++
          '(' :: rest))))) := by
      rw [← hopen, indentOf_append_trimLeft]
    _ = _ := by simp only [List.append_assoc]

/-! ## What follows the parameters -/

section Return

variable {t : Text}

theorem trailingClause_dropSemicolon (after : Text) :
    TrailingClause after (dropSemicolon after) := by
  rw [dropSemicolon]
  split
  · next h =>
    obtain ⟨t, ht⟩ := List.getLast?_eq_some_iff.1 h
    rw [ht, List.dropLast_concat]
    exact .semicolon ht
  · next h => exact .plain h

theorem trim_dropSemicolon (after : Text) : trim (dropSemicolon after) = dropSemicolon after := by
  rw [dropSemicolon]
  split <;> exact trim_trim _

/-- On one line a type is what follows a colon and is not blank. -/
theorem isSome_returnType?_iff (hline : '\n' ∉ t) :
    (returnType? t).isSome = true ↔ ∃ type, t = ':' :: type ∧ allBlank type = false := by
  cases t with
  | nil => exact iff_of_false (by decide) fun ⟨_, h, _⟩ => by cases h
  | cons c rest =>
    have hone : (trimLeft rest).all (· ≠ '\n') = true := List.all_eq_true.2 fun d hd =>
      decide_eq_true fun hn => hline (List.mem_cons_of_mem c (trimLeft_subset rest (hn ▸ hd)))
    rw [returnType?, hone]
    by_cases hc : c = ':'
    · subst hc
      by_cases hblank : trimLeft rest = []
      · rw [if_neg fun h => h.2.1 hblank]
        refine iff_of_false (by decide) ?_
        rintro ⟨type, heq, htype⟩
        cases heq
        rw [trimLeft_eq_nil_iff.1 hblank] at htype
        cases htype
      · rw [if_pos ⟨rfl, hblank, rfl⟩]
        refine iff_of_true rfl ⟨rest, rfl, ?_⟩
        exact Bool.eq_false_iff.2 fun h => hblank (trimLeft_eq_nil_iff.2 h)
    · rw [if_neg fun h => hc h.1]
      refine iff_of_false (by decide) ?_
      rintro ⟨type, heq, -⟩
      cases heq
      exact hc rfl

/-- **The reader of return clauses accepts return clauses and nothing else.** -/
theorem ReturnClause.isSome_read?_iff (htrim : trim t = t) (hline : '\n' ∉ t) :
    (ReturnClause.read? t).isSome = true ↔ IsReturnClause t := by
  rw [ReturnClause.read?, htrim]
  constructor
  · cases hname : name? t with
    | none =>
      simp only [Option.isSome_map]
      intro h
      obtain ⟨type, rfl, htype⟩ := (isSome_returnType?_iff hline).1 h
      exact .unnamed htype
    | some found =>
      obtain ⟨written, rest⟩ := found
      simp only [Option.isSome_map]
      intro h
      obtain ⟨name, hspells⟩ := name?_eq_some hname
      have ht := name?_eq hname
      have hrest : '\n' ∉ trimLeft rest := fun hmem => by
        rw [ht] at hline
        exact hline (List.mem_append_right _ (trimLeft_subset rest hmem))
      obtain ⟨type, heq, htype⟩ := (isSome_returnType?_iff hrest).1 h
      rw [ht, ← indentOf_append_trimLeft rest, heq]
      exact .named hspells (allBlank_indentOf rest) htype
  · intro h
    cases h with
    | @unnamed type htype =>
      have hname : name? (':' :: type) = none := rfl
      rw [hname]
      simp only [Option.isSome_map]
      exact (isSome_returnType?_iff hline).2 ⟨type, rfl, htype⟩
    | @named written name gap type hspells hgap htype =>
      have hstop : ∀ c ∈ (gap ++ ':' :: type).head?, continuesIdentifier c = false ∧ c ≠ '"' := by
        intro c hc
        cases gap with
        | nil =>
          cases hc
          exact ⟨by decide, by decide⟩
        | cons d gap =>
          cases hc
          have hblank : isBlank c = true := List.all_eq_true.1 hgap c List.mem_cons_self
          exact ⟨continuesIdentifier_of_isBlank hblank, ne_of_isBlank hblank (by decide)⟩
      have hcolon : trimLeft (gap ++ ':' :: type) = ':' :: type := by
        rw [trimLeft_blanks_append hgap]
        exact trimLeft_eq_self (show isBlank ':' = false by decide)
      rw [hspells.name?_append hstop]
      simp only [Option.isSome_map, hcolon]
      refine (isSome_returnType?_iff fun hmem => hline ?_).2 ⟨type, rfl, htype⟩
      exact List.mem_append_right _ (List.mem_append_right _ hmem)

theorem returnText?_eq_some_iff {after clause : Text} (hline : '\n' ∉ after) :
    returnText? after = some clause ↔
      clause = dropSemicolon after ∧ IsReturnClause (dropSemicolon after) := by
  have hclause := ReturnClause.isSome_read?_iff (trim_dropSemicolon after)
    fun hmem => hline (dropSemicolon_subset after hmem)
  rw [returnText?, ← hclause]
  split
  · next h => exact ⟨fun heq => ⟨(Option.some.inj heq).symm, h⟩, fun heq => by rw [heq.1]⟩
  · next h => exact iff_of_false (fun heq => by cases heq) fun hread => h hread.2

theorem isSome_bind_returnText? (after : Text) :
    ((returnText? after).bind ReturnClause.read?).isSome = (returnText? after).isSome := by
  rw [returnText?]
  split
  · next h => exact h
  · rfl

end Return

/-! ## Headers -/

/-- **A line with a header is made of parts that fit it.** Its parameters are closed, and it has a
return clause exactly if a text for one is kept. -/
theorem ProcedureHeader.exists_parts {line : Text} {h : ProcedureHeader} (hline : '\n' ∉ line)
    (hread : ProcedureHeader.read? line = some h) :
    (∃ p : HeaderParts, stripComment line = p.code ∧ p.Fit h) ∧
      h.returns.isSome = h.returnText.isSome ∧ parametersClosed line = true := by
  have hclosed := parametersClosed_of_read? (by rw [hread]; rfl)
  simp only [ProcedureHeader.read?, Option.bind_eq_bind, Option.bind_eq_some_iff] at hread
  obtain ⟨⟨head, rest⟩, hhead, ⟨inside, after⟩, hclose, heq⟩ := hread
  cases heq
  refine ⟨?_, isSome_bind_returnText? after, hclosed⟩
  obtain ⟨start, hstart, hcode⟩ := ProcedureHead.exists_spellsHead hhead
  have hrest : rest = inside ++ ')' :: after := closeParenthesis_eq hclose
  rw [hrest] at hcode
  have hafter : '\n' ∉ after := fun hmem => hline (stripComment_subset line (by
    rw [hcode]
    exact List.mem_append_right _ (List.mem_cons_of_mem _
      (List.mem_append_right _ (List.mem_cons_of_mem _ hmem)))))
  cases hstart with
  | @intro indent access keyword gap written name gapAfterName level kind hindent haccess hkeyword
      hgap hname hblank =>
    refine ⟨{ indent, access, keyword, gap, name := written, gapAfterName, inside, after }, hcode,
      ?_⟩
    exact {
      indent := hindent
      access := haccess
      keyword := hkeyword
      gap := hgap
      name := hname.unquote_eq.symm ▸ hname
      gapAfterName := hblank
      balanced := balanced_of_closeParenthesis hclose
      parameterText := rfl
      returnText :=
        ⟨_, trailingClause_dropSemicolon after, fun _ => returnText?_eq_some_iff hafter⟩ }

/-- A header with blanks between all its parts, parentheses in its quotes and one in its comment. -/
def looseLine : Text :=
  "  Internal  PROCEDURE \"Post \"\"all\"\" (\" ( var Line: Record \"A)\" ) Ok : Boolean ; // )"

/-- What `looseLine` says. -/
def looseHeader : ProcedureHeader where
  access := some .withinApp
  kind := .procedure
  name := "Post \"all\" ("
  parameterText := "var Line: Record \"A)\""
  returnText := some "Ok : Boolean"

theorem ProcedureHeader.exists_parts_looseLine :
    '\n' ∉ looseLine ∧ ProcedureHeader.read? looseLine = some looseHeader ∧
      (∃ p : HeaderParts, stripComment looseLine = p.code ∧ p.Fit looseHeader) ∧
      looseHeader.returns.isSome = true ∧ parametersClosed looseLine = true := by
  have hline : '\n' ∉ looseLine := by decide +kernel
  have hread : ProcedureHeader.read? looseLine = some looseHeader := by decide +kernel
  obtain ⟨hparts, hreturns, hclosed⟩ := exists_parts hline hread
  exact ⟨hline, hread, hparts, hreturns.trans rfl, hclosed⟩

end DocAudit
