import DocAudit.Documentation.Above
import DocAudit.Proofs.Text

/-!
# Structured comments among other lines

A structured comment is nothing else: it has no code, so that it opens no attribute, and it is not
blank. Its text is what the documentation of a declaration is made of.

* `commentText?_isSome`: the structured comments are the lines with comment text.
* `codeOf_eq_nil`, `codeOf_eq_nil_of_comment`, `codeOf_eq_nil_of_allBlank`: lines without code.
-/

namespace DocAudit

variable {line : Text}

theorem commentText?_isSome (line : Text) :
    (commentText? line).isSome = isStructuredComment line := by
  have hmarker : ∀ c ∈ commentMarker, isBlank c = false := by decide
  rw [commentText?, Option.isSome_map, isStructuredComment, ← isPrefixOf_trimRight hmarker, ← trim]
  generalize trim line = t
  -- Cutting the marker off succeeds exactly when it is there.
  have hcut : ∀ start t : Text, (start.isPrefixOf? t).isSome = start.isPrefixOf t := by
    intro start
    induction start with
    | nil => exact fun t => rfl
    | cons a start ih =>
      intro t
      cases t with
      | nil => rfl
      | cons c rest =>
        show (if a == c then start.isPrefixOf? rest else none).isSome = _
        rw [List.isPrefixOf_cons_cons]
        cases a == c with
        | true => exact ih rest
        | false => rfl
  exact hcut commentMarker t

theorem commentText?_eq_none (h : isStructuredComment line = false) :
    commentText? line = none := by
  rw [← commentText?_isSome] at h
  exact Option.isSome_eq_false_iff.1 h |> Option.isNone_iff_eq_none.1

/-- Blanks in front of a comment do not hide it. -/
theorem stripComment_blanks {blanks : Text} (h : allBlank blanks = true) (rest : Text) :
    stripComment (blanks ++ rest) = blanks ++ stripComment rest := by
  induction blanks with
  | nil => rfl
  | cons c blanks ih =>
    rw [allBlank, List.all_cons, Bool.and_eq_true] at h
    have hc : c ≠ '/' ∧ c ≠ '"' ∧ c ≠ '\'' := by
      refine ⟨?_, ?_, ?_⟩ <;>
        · rintro rfl
          have := h.1
          revert this
          decide
    rw [stripComment] at ih ⊢
    rw [List.cons_append, stripCommentFrom, if_neg fun hs => hc.1 hs.2.1, Quoting.step,
      if_neg hc.2.1, if_neg hc.2.2, ih h.2]
    rfl

theorem codeOf_eq_nil_of_comment (h : ("//" : Text).isPrefixOf (trimLeft line) = true) :
    codeOf line = [] := by
  rw [List.isPrefixOf_iff_prefix] at h
  obtain ⟨rest, hrest⟩ := h
  have hindent := allBlank_indentOf line
  rw [codeOf, ← indentOf_append_trimLeft line, ← hrest, stripComment_blanks hindent]
  have hstrip : stripComment (("//" : Text) ++ rest) = [] := rfl
  rw [hstrip, List.append_nil]
  exact trim_eq_nil hindent

theorem codeOf_eq_nil (h : isStructuredComment line = true) : codeOf line = [] := by
  rw [isStructuredComment, List.isPrefixOf_iff_prefix] at h
  have hmarker : ("//" : Text) <+: commentMarker := by decide
  exact codeOf_eq_nil_of_comment (List.isPrefixOf_iff_prefix.2 (hmarker.trans h))

theorem codeOf_eq_nil_of_allBlank (h : allBlank line = true) : codeOf line = [] := by
  have hstrip := stripComment_blanks h []
  rw [List.append_nil, show stripComment [] = [] from rfl, List.append_nil] at hstrip
  rw [codeOf, hstrip]
  exact trim_eq_nil h

theorem opensAttribute_eq_false (h : isStructuredComment line = true) :
    opensAttribute line = false := by
  rw [opensAttribute, codeOf_eq_nil h]
  rfl

theorem isStructuredComment_eq_false_of_allBlank (h : allBlank line = true) :
    isStructuredComment line = false := by
  rw [isStructuredComment, trimLeft_eq_nil_iff.2 h]
  rfl

end DocAudit
