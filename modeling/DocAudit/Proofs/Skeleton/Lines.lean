import DocAudit.Proofs.Skeleton.Placeholder
import DocAudit.Proofs.Source.Line

/-!
# The lines of a skeleton

A skeleton goes into a file as lines, and each of them is a comment: whatever the indentation, the
text of the comments is the template that the skeleton was made of.

* `IsTemplateLine`: what every line of a template is like.
* `Header.isTemplateLine`: the lines of a header's template.
* `lines_indented`, `map_commentText?_asComment`: the lines of a skeleton and their text.
-/

namespace DocAudit

open Markup

/-! ## Lines of a template -/

theorem getLast?_append_of_ne_nil (s : Text) {t : Text} (h : t ≠ []) :
    (s ++ t).getLast? = t.getLast? := by
  rw [List.getLast?_append, List.getLast?_eq_some_getLast h, Option.some_or]

/-- A line of a template: it stays on its line, and trimming its end takes nothing away. -/
structure IsTemplateLine (l : Text) : Prop where
  inline : Inline l
  ne_nil : l ≠ []
  last : l.getLast?.any isBlank = false

theorem IsTemplateLine.append {s l : Text} (hs : Inline s) (h : IsTemplateLine l) :
    IsTemplateLine (s ++ l) where
  inline := hs.append h.inline
  ne_nil := List.append_ne_nil_of_right_ne_nil s h.ne_nil
  last := by
    rw [getLast?_append_of_ne_nil s h.ne_nil]
    exact h.last

theorem isTemplateLine_placeholder (number : Nat) {default : Text} (h : Inline default) :
    IsTemplateLine (placeholder number default) := by
  have hstart : Inline ("$\x7b" ++ decimal number ++ ":" ++
      escapePlaceholder (escapeMarkup default)) := by
    refine ((Inline.append (by decide) (inline_decimal number)).append (by decide)).append ?_
    exact h.escapeMarkup.escapePlaceholder
  exact IsTemplateLine.append hstart ⟨by decide, by decide, by decide⟩

theorem isTemplateLine_summaryLines {default : Text} (h : Inline default) :
    ∀ l ∈ summaryLines default, IsTemplateLine l := by
  intro l hl
  rcases List.mem_cons.1 hl with rfl | hl
  · exact ⟨by decide, by decide, by decide⟩
  · rcases List.mem_cons.1 hl with rfl | hl
    · exact isTemplateLine_placeholder 1 h
    · rw [List.mem_singleton.1 hl]
      exact ⟨by decide, by decide, by decide⟩

theorem isTemplateLine_parameterLine (number : Nat) {p : ParameterClause} (h : p.IsInline) :
    IsTemplateLine (parameterLine number p) := by
  have htype := (isTemplateLine_placeholder number (h.dataType.append inline_period)).inline
  refine IsTemplateLine.append ?_ ⟨by decide, by decide, by decide⟩
  exact ((Inline.append (by decide) h.name.escapeMarkup).append (by decide)).append htype

theorem isTemplateLine_returnLine (number : Nat) {r : ReturnClause} (h : r.IsInline) :
    IsTemplateLine (returnLine number r) := by
  have hsentence := (isTemplateLine_placeholder number h.sentence).inline
  exact IsTemplateLine.append (Inline.append (by decide) hsentence)
    ⟨by decide, by decide, by decide⟩

theorem isTemplateLine_parameterLines {number : Nat} {ps : List ParameterClause}
    (h : ∀ p ∈ ps, p.IsInline) : ∀ l ∈ parameterLines number ps, IsTemplateLine l := by
  induction ps generalizing number with
  | nil =>
    intro l hl
    cases hl
  | cons p ps ih =>
    intro l hl
    rcases List.mem_cons.1 hl with rfl | hl
    · exact isTemplateLine_parameterLine number (h p List.mem_cons_self)
    · exact ih (fun q hq => h q (List.mem_cons_of_mem p hq)) l hl

/-! ## Headers -/

/-- The template of a header, line by line. -/
def Header.skeletonLines : Header → List Text
  | .object h => h.skeletonLines
  | .procedure h => h.skeletonLines

theorem Header.skeletonLines_ne_nil (h : Header) : h.skeletonLines ≠ [] := by
  cases h with
  | object h => exact List.cons_ne_nil _ _
  | procedure h => exact List.cons_ne_nil _ _

theorem Header.skeleton_eq (h : Header) : h.skeleton = asComments h.skeletonLines := by
  cases h with
  | object h => rfl
  | procedure h => rfl

/-- What a skeleton repeats of the header is inline. -/
def Header.IsInline : Header → Prop
  | .object h => Inline (objectSentence h)
  | .procedure h => h.IsInline

/-- **Every line of a template is a line.** -/
theorem Header.isTemplateLine {h : Header} (hi : h.IsInline) :
    ∀ l ∈ h.skeletonLines, IsTemplateLine l := by
  cases h with
  | object h => exact isTemplateLine_summaryLines hi
  | procedure h =>
    have hi : h.IsInline := hi
    intro l hl
    rcases List.mem_append.1 hl with hl | hl
    · rcases List.mem_append.1 hl with hl | hl
      · exact isTemplateLine_summaryLines (hi.name.append inline_period) l hl
      · exact isTemplateLine_parameterLines hi.parameters l hl
    · rw [Option.mem_toList] at hl
      obtain ⟨r, hr, rfl⟩ := Option.map_eq_some_iff.1 hl
      exact isTemplateLine_returnLine _ (hi.returns r hr)

/-! ## Comments -/

/-- A line of a template as a comment. -/
def asComment (indent l : Text) : Text := indent ++ ("/// " ++ l)

theorem IsTemplateLine.isLine {indent l : Text} (h : IsTemplateLine l) (hn : '\n' ∉ indent) :
    IsLine (asComment indent l) := by
  have hcomment : IsTemplateLine ("/// " ++ l) := h.append (by decide)
  refine ⟨List.append_ne_nil_of_right_ne_nil indent hcomment.ne_nil, fun hc => ?_, fun hr => ?_⟩
  · rcases List.mem_append.1 hc with hc | hc
    · exact hn hc
    · exact hcomment.inline.not_mem_lineFeed hc
  · rw [asComment, getLast?_append_of_ne_nil indent hcomment.ne_nil] at hr
    exact hcomment.inline.not_mem_return (List.mem_of_getLast? hr)

/-- The text of the comment is the line. -/
theorem IsTemplateLine.commentText?_eq {indent l : Text} (h : IsTemplateLine l)
    (hi : allBlank indent = true) : commentText? (asComment indent l) = some l := by
  have hcomment : IsTemplateLine ("/// " ++ l) := h.append (by decide)
  rw [commentText?, asComment, trim_indent hi rfl hcomment.last]
  rfl

theorem lines_asComments {template : List Text} (h : ∀ l ∈ template, IsTemplateLine l) :
    lines (asComments template) = template.map (asComment []) := by
  apply lines_joinLines
  intro l hl
  obtain ⟨l', hl', rfl⟩ := List.mem_map.1 hl
  have hnil : '\n' ∉ ([] : Text) := List.not_mem_nil
  exact (h l' hl').isLine hnil

/-- **The lines of an indented skeleton** are the lines of its template as comments. -/
theorem lines_indented {template : List Text} {indent : Text}
    (h : ∀ l ∈ template, IsTemplateLine l) (hn : '\n' ∉ indent) :
    lines (joinLines (indented indent (asComments template))) =
      template.map (asComment indent) := by
  have hindented : indented indent (asComments template) = template.map (asComment indent) := by
    rw [indented, lines_asComments h, List.map_map]
    rfl
  rw [hindented]
  apply lines_joinLines
  intro l hl
  obtain ⟨l', hl', rfl⟩ := List.mem_map.1 hl
  exact (h l' hl').isLine hn

theorem map_commentText?_asComment {template : List Text} {indent : Text}
    (h : ∀ l ∈ template, IsTemplateLine l) (hi : allBlank indent = true) :
    (template.map (asComment indent)).map commentText? = template.map some := by
  rw [List.map_map]
  apply List.map_congr_left
  intro l hl
  exact (h l hl).commentText?_eq hi

end DocAudit
