import DocAudit.Proofs.Source.HeaderParts
import DocAudit.Proofs.Source.WrittenObject
import DocAudit.Source.Line

/-!
# Procedures are no objects

A line that starts with `procedure` or `trigger` is never an object header. Before those words an
access word may stand, and then the reader of object headers takes the access word for a kind and
`procedure` for a name. Almost always it fails behind that name, where a header has to end or to go
on with a relation. It does not fail where the procedure itself is named like a relation:

    local procedure extends (Item: Record Item)

* `NamedLikeRelation`: the lines that are both.
* `ObjectHeader.read?_modified`: what is read of a line that starts with an access word.
* `isSome_relation?_iff_spelled`: when the name of a procedure is taken for a relation.
* `startsProcedure_excludes_iff`: a line that starts a procedure is an object header exactly then.
-/

namespace DocAudit

/-- A procedure with an access word whose name spells the word of a relation, up to case folding,
with blanks before its parenthesis. -/
inductive NamedLikeRelation : Text → Prop
  | intro {indent access keyword gap name gapAfterName rest : Text} {level : Access}
      {kind : ProcedureKind} (hindent : allBlank indent = true)
      (haccess : SpellsAccess access (some level)) (hkeyword : lower keyword = kind.word)
      (hgap : IsGap gap) (hname : name.map foldCase ∈ relationWords.map (·.1))
      (hafter : IsGap gapAfterName) :
      NamedLikeRelation
        (indent ++ (access ++ (keyword ++ (gap ++ (name ++ (gapAfterName ++ '(' :: rest))))))

variable {t word written rest : Text}

/-! ## Words -/

/-- A text of ASCII letters that is not empty. -/
structure Letters (t : Text) : Prop where
  ne_nil : t ≠ []
  isAlpha : ∀ c ∈ t, c.isAlpha = true

namespace Letters

theorem of_lower (hword : Letters word) (h : lower written = word) : Letters written where
  ne_nil := by
    rintro rfl
    exact hword.ne_nil h.symm
  isAlpha := by
    intro c hc
    subst h
    rw [← toLower_congr (f := Char.isAlpha) (by decide) c]
    exact hword.isAlpha c.toLower (List.mem_map_of_mem hc)

variable (h : Letters t)

include h

theorem inIdentifier {c : Char} (hc : c ∈ t) : inIdentifier c = true :=
  inIdentifier_of_isAlphanum (by rw [Char.isAlphanum, h.isAlpha c hc, Bool.true_or])

theorem head?_append (rest : Text) : (t ++ rest).head?.any isBlank = false := by
  obtain ⟨c, tail, rfl⟩ := List.exists_cons_of_ne_nil h.ne_nil
  exact isBlank_of_inIdentifier (h.inIdentifier List.mem_cons_self)

theorem word?_append (hrest : rest.head?.any isBlank = true) :
    word? (t ++ rest) = some (t, rest) := by
  refine DocAudit.word?_append ?_ (fun c hc => ?_) hrest
  · obtain ⟨c, tail, rfl⟩ := List.exists_cons_of_ne_nil h.ne_nil
    exact h.isAlpha c List.mem_cons_self
  · rw [Char.isAlphanum, h.isAlpha c hc, Bool.true_or]

theorem number?_append (rest : Text) : number? (t ++ rest) = none := by
  obtain ⟨c, tail, rfl⟩ := List.exists_cons_of_ne_nil h.ne_nil
  have hc : ¬ c.isDigit = true := by
    have halpha := isAlpha_iff.1 (h.isAlpha c List.mem_cons_self)
    rw [isDigit_iff]
    omega
  rw [number?, List.cons_append, List.takeWhile_cons_of_neg hc]
  rfl

theorem spells : Spells t t := by
  obtain ⟨c, tail, rfl⟩ := List.exists_cons_of_ne_nil h.ne_nil
  have hstart : ∀ d ∈ c :: tail, startsIdentifier d = true := fun d hd => by
    simp [startsIdentifier, isLetter, h.isAlpha d hd]
  refine .identifier (hstart c List.mem_cons_self) fun d hd => ?_
  simp [continuesIdentifier, hstart d (List.mem_cons_of_mem c hd)]

end Letters

theorem letters_of_mem_words : ∀ word ∈ modifierWords ++ (procedureWords.map (·.1) ++
    relationWords.map (·.1)), word ≠ [] ∧ ∀ c ∈ word, c.isAlpha = true := by decide

theorem Access.letters_word {a : Access} (ha : a ≠ .everywhere) : Letters a.word :=
  have hfacts := letters_of_mem_words a.word (List.mem_append_left _ (word_modifier ha).1)
  ⟨hfacts.1, hfacts.2⟩

theorem letters_of_mem_relationWords (h : word ∈ relationWords.map (·.1)) : Letters word :=
  have hfacts := letters_of_mem_words word
    (List.mem_append_right _ (List.mem_append_right _ h))
  ⟨hfacts.1, hfacts.2⟩

theorem ProcedureKind.letters_word (k : ProcedureKind) : Letters k.word :=
  have hfacts := letters_of_mem_words k.word
    (List.mem_append_right _ (List.mem_append_left _ k.word_keyword.1))
  ⟨hfacts.1, hfacts.2⟩

theorem head?_gap_append {gap : Text} (hgap : IsGap gap) (t : Text) :
    (gap ++ t).head?.any isBlank = true := by
  obtain ⟨c, rest, rfl⟩ := List.exists_cons_of_ne_nil hgap.ne_nil
  exact List.all_eq_true.1 hgap.blank c List.mem_cons_self

namespace Spells

variable {name : Text} (h : Spells written name)

include h

theorem head?_append (tail : Text) : (written ++ tail).head?.any isBlank = false := by
  obtain ⟨c, rest, hcons⟩ := List.exists_cons_of_ne_nil h.trimmed.ne_nil
  have hfirst := h.trimmed.first
  rw [hcons] at hfirst ⊢
  exact hfirst

theorem endsHeader_append (tail : Text) : endsHeader (written ++ tail) = false := by
  obtain ⟨c, rest, hcons⟩ := List.exists_cons_of_ne_nil h.trimmed.ne_nil
  have hblank := h.head?_append tail
  have hbrace : c ≠ '{' := by
    rintro rfl
    cases h with
    | identifier hstart hrest =>
      cases hcons
      revert hstart
      decide
    | quoted hne => cases hcons
  rw [hcons] at hblank ⊢
  exact endsHeader_eq_false hblank hbrace

end Spells

/-! ## What object headers make of a procedure -/

section Reading

variable {line indent access keyword gap tail : Text} {level : Access} {kind : ProcedureKind}

theorem ObjectHeader.read?_of_keyword (hindent : allBlank indent = true)
    (hkeyword : lower keyword = kind.word) (hgap : IsGap gap)
    (hcode : stripComment line = indent ++ (keyword ++ (gap ++ tail))) :
    ObjectHeader.read? line = none := by
  have hletters := kind.letters_word.of_lower hkeyword
  have hleft : trimLeft (stripComment line) = keyword ++ (gap ++ tail) := by
    rw [hcode, trimLeft_blanks_append hindent, trimLeft_eq_self (hletters.head?_append _)]
  have hprocedure : isProcedureWord keyword = true := by
    rw [isProcedureWord, Bool.or_eq_true, sameWord_iff, sameWord_iff, hkeyword]
    cases kind <;> decide
  rw [ObjectHeader.read?, hleft, hletters.word?_append (head?_gap_append hgap tail)]
  simp [hprocedure]

/-- **A line that starts with an access word** is read as an object whose name is the word for the
procedure, if a relation is read behind that word. -/
theorem ObjectHeader.read?_modified (hindent : allBlank indent = true)
    (haccess : SpellsAccess access (some level)) (hkeyword : lower keyword = kind.word)
    (hgap : IsGap gap) (hname : Spells written word)
    (hcode : stripComment line =
      indent ++ (access ++ (keyword ++ (gap ++ (written ++ tail))))) :
    (ObjectHeader.read? line).isSome = (relation? (written ++ tail)).isSome := by
  cases haccess with
  | @word modifier gap' _ hlevel hmodifier hgap' =>
    have hletters := (Access.letters_word hlevel).of_lower hmodifier
    have hname' := kind.letters_word.of_lower hkeyword
    have hleft : trimLeft (stripComment line) =
        modifier ++ (gap' ++ (keyword ++ (gap ++ (written ++ tail)))) := by
      rw [hcode, List.append_assoc, trimLeft_blanks_append hindent,
        trimLeft_eq_self (hletters.head?_append _)]
    have hstop : ∀ c ∈ (gap ++ (written ++ tail)).head?,
        continuesIdentifier c = false ∧ c ≠ '"' := by
      intro c hc
      have hblank := head?_gap_append hgap (written ++ tail)
      rw [hc] at hblank
      exact ⟨continuesIdentifier_of_isBlank hblank, ne_of_isBlank hblank (by decide)⟩
    have htail : headerTail? (gap ++ (written ++ tail)) =
        (relation? (written ++ tail)).map some := by
      have hends : endsHeader (gap ++ (written ++ tail)) = false := by
        rw [endsHeader_append hgap.blank, hname.endsHeader_append]
      have hrun := hgap.blankRun_append (hname.head?_append tail)
      simp only [headerTail?, hends, Bool.false_eq_true, if_false, hrun]
    have hbody : headerBody? modifier (keyword ++ (gap ++ (written ++ tail))) =
        (relation? (written ++ tail)).map fun relation =>
          { keyword := modifier, number := none, name := unquote keyword
            relation := some relation } := by
      rw [headerBody?, hname'.number?_append]
      simp only [hname'.spells.name?_append hstop, htail, Option.bind_eq_bind, Option.bind_some]
      cases relation? (written ++ tail) <;> rfl
    have hplain : isProcedureWord modifier = false := by
      rw [isProcedureWord, Bool.or_eq_false_iff, sameWord, sameWord, hmodifier]
      cases level <;> decide
    have hrun := hgap'.blankRun_append (hname'.head?_append (gap ++ (written ++ tail)))
    have hword := hletters.word?_append
      (head?_gap_append hgap' (keyword ++ (gap ++ (written ++ tail))))
    simp only [ObjectHeader.read?, hleft, hword, hrun, hbody, hplain, Option.bind_eq_bind,
      Option.bind_some]
    cases relation? (written ++ tail) <;> rfl

end Reading

/-! ## Relations -/

/-- What a relation is read from. -/
theorem isSome_relation?_iff : (relation? t).isSome = true ↔
    ∃ seen after, seen.map foldCase ∈ relationWords.map (·.1) ∧ t = seen ++ after ∧
      after.head?.any isBlank = true ∧ (target? after).isSome = true := by
  rw [relation?, List.findSome?_isSome_iff]
  constructor
  · rintro ⟨⟨word, kind⟩, hmem, h⟩
    cases hread : readFolded word t with
    | none => simp [hread] at h
    | some found =>
      obtain ⟨seen, after⟩ := found
      obtain ⟨rfl, ht⟩ := readFolded_eq_some_iff.1 hread
      by_cases hgap : after.head?.any isBlank = true
      · simp only [hread, if_pos hgap, Option.isSome_map] at h
        exact ⟨seen, after, List.mem_map_of_mem hmem, ht, hgap, h⟩
      · simp [hread, hgap] at h
  · rintro ⟨seen, after, hmem, ht, hgap, htarget⟩
    obtain ⟨⟨word, kind⟩, hentry, hword⟩ := List.mem_map.1 hmem
    have hread : readFolded word t = some (seen, after) :=
      readFolded_eq_some_iff.2 ⟨hword.symm, ht⟩
    refine ⟨(word, kind), hentry, ?_⟩
    simp only [hread, if_pos hgap, Option.isSome_map, htarget]

theorem startsIdentifier_of_foldCase {c : Char} (h : (foldCase c).isAlpha = true) :
    startsIdentifier c = true := by
  rw [foldCase] at h
  by_cases hs : c = '\u017f'
  · rw [hs]
    decide
  · by_cases hk : c = '\u212a'
    · rw [hk]
      decide
    · rw [if_neg hs, if_neg hk, toLower_congr (f := Char.isAlpha) (by decide) c] at h
      simp [startsIdentifier, isLetter, h]

theorem spells_of_foldCase (h : Letters (written.map foldCase)) : Spells written written := by
  have hstart : ∀ c ∈ written, startsIdentifier c = true := fun c hc =>
    startsIdentifier_of_foldCase (h.isAlpha (foldCase c) (List.mem_map_of_mem hc))
  cases written with
  | nil => exact absurd rfl h.ne_nil
  | cons c written =>
    refine .identifier (hstart c List.mem_cons_self) fun d hd => ?_
    simp [continuesIdentifier, hstart d (List.mem_cons_of_mem c hd)]

/-- **A name is taken for a relation** if it spells the word of one and a blank follows. -/
theorem isSome_relation?_iff_spelled {name gapAfterName : Text} (hname : Spells written name)
    (hafter : allBlank gapAfterName = true) (hline : '\n' ∉ rest) :
    (relation? (written ++ (gapAfterName ++ '(' :: rest))).isSome = true ↔
      written.map foldCase ∈ relationWords.map (·.1) ∧ IsGap gapAfterName := by
  constructor
  · intro hsome
    obtain ⟨seen, after, hmem, ht, hgap, -⟩ := isSome_relation?_iff.1 hsome
    -- The word of the relation is an identifier, as the name is, and a text starts with only one.
    have hseen : name? (seen ++ after) = some (seen, after) := by
      apply (spells_of_foldCase (letters_of_mem_relationWords hmem)).name?_append
      intro c hc
      rw [hc] at hgap
      exact ⟨continuesIdentifier_of_isBlank hgap, ne_of_isBlank hgap (by decide)⟩
    have hwritten : name? (written ++ (gapAfterName ++ '(' :: rest)) =
        some (written, gapAfterName ++ '(' :: rest) := by
      apply hname.name?_append
      intro c hc
      cases gapAfterName with
      | nil =>
        cases hc
        exact ⟨by decide, by decide⟩
      | cons d gap =>
        cases hc
        have hblank : isBlank c = true := List.all_eq_true.1 hafter c List.mem_cons_self
        exact ⟨continuesIdentifier_of_isBlank hblank, ne_of_isBlank hblank (by decide)⟩
    rw [ht, hseen] at hwritten
    cases hwritten
    refine ⟨hmem, ?_, hafter⟩
    rintro rfl
    exact absurd hgap (show ¬ isBlank '(' = true by decide)
  · intro ⟨hmem, hgap⟩
    refine isSome_relation?_iff.2 ⟨_, _, hmem, rfl, head?_gap_append hgap _, ?_⟩
    have hopen : isBlank '(' = false := by decide
    have hends : endsHeader ('(' :: rest) = false := endsHeader_eq_false hopen (by decide)
    have hone : '\n' ∉ '(' :: rest := by simp [hline]
    have hleft : trimLeft (gapAfterName ++ '(' :: rest) = '(' :: rest := by
      rw [trimLeft_blanks_append hafter, trimLeft_eq_self (t := '(' :: rest) hopen]
    simp only [target?, hleft, targetText?_eq hone hends, Option.map_some, Option.isSome_some]

/-! ## Lines -/

section Lines

variable {line : Text}

theorem not_mem_of_code_eq {s : Text} (hline : '\n' ∉ line)
    (hcode : stripComment line = s ++ '(' :: rest) : '\n' ∉ rest := by
  intro hmem
  apply hline
  apply stripComment_subset line
  rw [hcode]
  exact List.mem_append_right s (List.mem_cons_of_mem '(' hmem)

/-- A procedure that is named like a relation is read as an object. -/
theorem NamedLikeRelation.isSome_read? (hline : '\n' ∉ line)
    (h : NamedLikeRelation (stripComment line)) : (ObjectHeader.read? line).isSome = true := by
  generalize hcode : stripComment line = code at h
  cases h with
  | @intro indent access keyword gap name gapAfterName rest level kind hindent haccess hkeyword
      hgap hname hafter =>
    have hspells := spells_of_foldCase (letters_of_mem_relationWords hname)
    have hrest : '\n' ∉ rest := by
      apply not_mem_of_code_eq hline (s :=
        indent ++ (access ++ (keyword ++ (gap ++ (name ++ gapAfterName)))))
      simp only [hcode, List.append_assoc]
    rw [ObjectHeader.read?_modified hindent haccess hkeyword hgap hspells hcode]
    exact (isSome_relation?_iff_spelled hspells hafter.blank hrest).2 ⟨hname, hafter⟩

/-- A line that starts a procedure and is read as an object is such a procedure. -/
theorem NamedLikeRelation.of_isSome_read? (hline : '\n' ∉ line)
    (hstart : startsProcedure line = true) (h : (ObjectHeader.read? line).isSome = true) :
    NamedLikeRelation (stripComment line) := by
  obtain ⟨⟨head, rest⟩, hread⟩ := Option.isSome_iff_exists.1 hstart
  obtain ⟨s, hspells, hcode⟩ := ProcedureHead.exists_spellsHead hread
  have hrest := not_mem_of_code_eq hline hcode
  cases hspells with
  | @intro indent access keyword gap written name gapAfterName level kind hindent haccess
      hkeyword hgap hname hafter =>
    simp only [List.append_assoc] at hcode
    cases level with
    | none =>
      cases haccess
      rw [ObjectHeader.read?_of_keyword hindent hkeyword hgap hcode] at h
      cases h
    | some level =>
      rw [ObjectHeader.read?_modified hindent haccess hkeyword hgap hname hcode,
        isSome_relation?_iff_spelled hname hafter hrest] at h
      rw [hcode]
      exact .intro hindent haccess hkeyword hgap h.1 h.2

/-- **A line that starts a procedure is no object header**, unless the procedure has an access word
and is named like a relation. -/
theorem startsProcedure_excludes_iff (hline : '\n' ∉ line) (hstart : startsProcedure line = true) :
    (ObjectHeader.read? line = none ↔ ¬ NamedLikeRelation (stripComment line)) ∧
      (isObjectHeader line = false ↔ ¬ NamedLikeRelation (stripComment line)) := by
  have hsome : (ObjectHeader.read? line).isSome = true ↔
      NamedLikeRelation (stripComment line) :=
    ⟨NamedLikeRelation.of_isSome_read? hline hstart, NamedLikeRelation.isSome_read? hline⟩
  rw [← hsome, isObjectHeader]
  simp

end Lines

/-- A procedure that is named like a relation, without a blank behind the name. -/
def extendsLine : Text := "  Internal procedure Extends(var Item: Record Item // extends ("

theorem startsProcedure_excludes_extendsLine :
    '\n' ∉ extendsLine ∧ startsProcedure extendsLine = true ∧
      ¬ NamedLikeRelation (stripComment extendsLine) ∧ isObjectHeader extendsLine = false := by
  have hline : '\n' ∉ extendsLine := by decide +kernel
  have hstart : startsProcedure extendsLine = true := by decide +kernel
  obtain ⟨hread, hobject⟩ := startsProcedure_excludes_iff hline hstart
  have hnamed := hread.1 (by decide +kernel)
  exact ⟨hline, hstart, hnamed, hobject.2 hnamed⟩

/-- With a blank behind the name the line is an object of the kind `local`. -/
theorem exists_startsProcedure_isObjectHeader :
    ∃ line, '\n' ∉ line ∧ startsProcedure line = true ∧ isObjectHeader line = true :=
  ⟨"local procedure extends (A: Integer)", by decide +kernel⟩

end DocAudit
