import DocAudit.Proofs.Source.Line
import DocAudit.Proofs.Source.ProcedureHeader
import DocAudit.Source.Signature

/-!
# Lines that declare

A line that declares something has code, and its code opens no attribute. So it is neither blank nor
a comment nor an attribute, and no reader of such lines takes it.

* `hasPlainCode`: the line has code that opens no attribute.
* `hasPlainCode_of_startsProcedure`, `hasPlainCode_of_objectHeader`: headers have such code.
* `isAttribute_eq_false`, `isStructuredComment_eq_false`, `skipped_eq_false`: what such a line is
  not.
-/

namespace DocAudit

/-- Whether a line has code that opens no attribute. -/
def hasPlainCode (line : Text) : Bool := (codeOf line).head?.any (· ≠ '[')

/-- Trimming at the right leaves the first character that is not blank. -/
theorem head?_trim (t : Text) : (trim t).head? = (trimLeft t).head? := by
  obtain ⟨blanks, -, heq⟩ := exists_trimRight (trimLeft t)
  rw [trim]
  cases hleft : trimLeft t with
  | nil => rfl
  | cons c rest =>
    rw [hleft] at heq
    cases hright : trimRight (c :: rest) with
    | nil =>
      -- What is left would be blank, but its first character is not.
      have hblank := trimRight_eq_nil_iff.1 hright
      have hfirst := List.head?_dropWhile_not isBlank t
      rw [allBlank, List.all_cons, Bool.and_eq_true] at hblank
      rw [← trimLeft, hleft] at hfirst
      rw [show isBlank c = false from hfirst] at hblank
      cases hblank.1
    | cons d kept =>
      rw [hright] at heq
      cases heq
      rfl

section

variable {line : Text}

theorem hasPlainCode_eq (line : Text) :
    hasPlainCode line = (trimLeft (stripComment line)).head?.any (· ≠ '[') := by
  rw [hasPlainCode, codeOf, head?_trim]

/-- Without plain code, a line has no code or opens an attribute. -/
theorem code_cases (h : hasPlainCode line = false) :
    trimLeft (stripComment line) = [] ∨ ∃ rest, trimLeft (stripComment line) = '[' :: rest := by
  rw [hasPlainCode_eq] at h
  cases hcode : trimLeft (stripComment line) with
  | nil => exact Or.inl rfl
  | cons c rest =>
    rw [hcode, List.head?_cons, Option.any_some, decide_eq_false_iff_not, Classical.not_not] at h
    exact Or.inr ⟨rest, by rw [h]⟩

/-! ## Headers -/

theorem hasPlainCode_of_startsProcedure (h : startsProcedure line = true) :
    hasPlainCode line = true := by
  rw [← Bool.not_eq_false]
  intro hplain
  obtain ⟨⟨head, after⟩, hread⟩ := Option.isSome_iff_exists.1 h
  obtain ⟨word, written, afterKind, -, hk, -⟩ := ProcedureHead.read?_eq_some_iff.1 hread
  rcases code_cases hplain with hcode | ⟨rest, hcode⟩
  · have hnone : keyword? (procedureWords.map (·.1)) (readModifier []).2 = none := by
      decide +kernel
    rw [hcode, hnone] at hk
    cases hk
  · have hmodifier : keyword? modifierWords ('[' :: rest) = none :=
      keyword?_eq_none (by decide) rest
    rw [hcode, readModifier, hmodifier, keyword?_eq_none (by decide)] at hk
    cases hk

theorem hasPlainCode_of_objectHeader (h : (ObjectHeader.read? line).isSome = true) :
    hasPlainCode line = true := by
  rw [← Bool.not_eq_false]
  intro hplain
  have hword : word? (trimLeft (stripComment line)) = none := by
    rcases code_cases hplain with hcode | ⟨rest, hcode⟩ <;>
      · rw [hcode]
        rfl
  rw [ObjectHeader.read?, hword] at h
  cases h

/-! ## What such a line is not -/

variable (h : hasPlainCode line = true)
include h

theorem codeOf_ne_nil : codeOf line ≠ [] := by
  intro hnil
  rw [hasPlainCode, hnil] at h
  cases h

theorem opensAttribute_eq_false_of_hasPlainCode : opensAttribute line = false := by
  rw [hasPlainCode] at h
  rw [opensAttribute, decide_eq_false_iff_not]
  intro hopen
  rw [hopen] at h
  cases h

theorem isAttribute_eq_false : isAttribute line = false := by
  have hopen := opensAttribute_eq_false_of_hasPlainCode h
  rw [opensAttribute, decide_eq_false_iff_not] at hopen
  rw [isAttribute, Attribute.read?]
  cases hcode : codeOf line with
  | nil => rfl
  | cons c rest =>
    simp only
    rw [if_neg fun hc => hopen (by rw [hcode, hc.1]; rfl)]
    rfl

theorem isStructuredComment_eq_false : isStructuredComment line = false :=
  Bool.eq_false_iff.2 fun hs => codeOf_ne_nil h (codeOf_eq_nil hs)

theorem allBlank_eq_false : allBlank line = false :=
  Bool.eq_false_iff.2 fun hb => codeOf_ne_nil h (codeOf_eq_nil_of_allBlank hb)

/-- The pass over a file does not skip such a line. -/
theorem skipped_eq_false :
    (allBlank line || isInlineComment line || isStructuredComment line) = false := by
  have hinline : isInlineComment line = false := by
    refine Bool.eq_false_iff.2 fun hs => codeOf_ne_nil h (codeOf_eq_nil_of_comment ?_)
    rw [isInlineComment, Bool.and_eq_true] at hs
    exact hs.1
  rw [allBlank_eq_false h, hinline, isStructuredComment_eq_false h]
  rfl

end

end DocAudit
