import DocAudit.Finding.Evaluation
import DocAudit.Proofs.Documentation.Tags
import DocAudit.Proofs.Skeleton.Placeholder

/-!
# Skeletons are made of fragments

Each tag of a skeleton is a fragment, and a skeleton read as documentation has the tags it was made
with: a summary, a tag for every parameter in order, and one for the return value if there is any.

* `ObjectHeader.joinLines_skeletonLines`, `ProcedureHeader.joinLines_skeletonLines`: the fragments
  of a skeleton.
* `ObjectHeader.read_skeletonLines`, `ProcedureHeader.read_skeletonLines`: its tags.
-/

namespace DocAudit

open Markup

/-! ## Fragments -/

/-- The summary of a skeleton. -/
def summaryFragment (default : Text) (h : Inline default) : Fragment where
  tag := "summary"
  known := by decide
  name := none
  inline := nofun
  text := '\n' :: (placeholderText 1 default ++ ['\n'])
  ne_nil := List.cons_ne_nil _ _
  allowed := by
    intro c hc
    rcases List.mem_cons.1 hc with rfl | hc
    · decide
    · rcases List.mem_append.1 hc with hc | hc
      · exact (inline_placeholderText 1 h).allowed c hc
      · rw [List.mem_singleton.1 hc]
        decide

/-- The fragment that documents a parameter. -/
def parameterFragment (number : Nat) (p : ParameterClause) (h : p.IsInline) : Fragment where
  tag := "param"
  known := by decide
  name := some p.name
  inline := fun n hn => Option.some.inj hn ▸ h.name
  text := placeholderText number (p.dataType ++ ".")
  ne_nil := List.ne_nil_of_mem (mem_placeholderText _ _)
  allowed := (inline_placeholderText number (h.dataType.append inline_period)).allowed

theorem text_parameterFragment (number : Nat) (p : ParameterClause) (h : p.IsInline) :
    (parameterFragment number p h).text = placeholderText number (p.dataType ++ ".") := rfl

/-- The fragment that documents a return value. -/
def returnFragment (number : Nat) (r : ReturnClause) (h : r.IsInline) : Fragment where
  tag := "returns"
  known := by decide
  name := none
  inline := nofun
  text := placeholderText number (returnSentence r)
  ne_nil := List.ne_nil_of_mem (mem_placeholderText _ _)
  allowed := (inline_placeholderText number h.sentence).allowed

theorem text_returnFragment (number : Nat) (r : ReturnClause) (h : r.IsInline) :
    (returnFragment number r h).text = placeholderText number (returnSentence r) := rfl

/-- The fragments that document parameters, numbered from `number` on. -/
def parameterFragments (number : Nat) :
    (ps : List ParameterClause) → (∀ p ∈ ps, p.IsInline) → List Fragment
  | [], _ => []
  | p :: rest, h =>
    parameterFragment number p (h p List.mem_cons_self) ::
      parameterFragments (number + 1) rest fun q hq => h q (List.mem_cons_of_mem p hq)

/-- The fragment that documents a return value, if there is any. -/
def returnFragments (number : Nat) :
    (r : Option ReturnClause) → (∀ c, r = some c → c.IsInline) → List Fragment
  | none, _ => []
  | some r, h => [returnFragment number r (h r rfl)]

/-- The fragments of the skeleton of a procedure. -/
def ProcedureHeader.fragments (h : ProcedureHeader) (hi : h.IsInline) : List Fragment :=
  summaryFragment (h.name ++ ".") (hi.name.append inline_period) ::
    (parameterFragments 2 h.parameters hi.parameters ++
      returnFragments (2 + h.parameters.length) h.returns hi.returns)

/-! ## Lines -/

theorem joinLines_cons_append (a b : Text) (ls : List Text) :
    joinLines ((a ++ '\n' :: b) :: ls) = joinLines (a :: b :: ls) := by
  cases ls with
  | nil =>
    rw [joinLines_cons_cons, joinLines, List.intercalate_singleton, joinLines,
      List.intercalate_singleton]
  | cons l ls =>
    rw [joinLines_cons_cons, joinLines_cons_cons, joinLines_cons_cons, List.append_assoc,
      List.cons_append]

/-- The three lines of a summary are its fragment. -/
theorem joinLines_summaryLines (default : Text) (h : Inline default) (ls : List Text) :
    joinLines (summaryLines default ++ ls) =
      joinLines ((summaryFragment default h).markup :: ls) := by
  have htext : escapeMarkup (summaryFragment default h).text =
      '\n' :: (placeholder 1 default ++ ['\n']) := by
    rw [placeholder_eq]
    show escapeMarkup (['\n'] ++ (placeholderText 1 default ++ ['\n'])) = _
    simp only [escapeMarkup_append]
    rfl
  have hmarkup : (summaryFragment default h).markup =
      "<summary>" ++ '\n' :: (placeholder 1 default ++ '\n' :: ("</summary>" : Text)) := by
    simp only [Fragment.markup, htext, List.append_assoc, List.cons_append]
    rfl
  have hlines : summaryLines default ++ ls =
      ("<summary>" : Text) :: placeholder 1 default :: ("</summary>" : Text) :: ls := rfl
  rw [hmarkup, joinLines_cons_append, hlines, joinLines_cons_cons, joinLines_cons_cons _ (_ ++ _),
    joinLines_cons_append]

theorem opening_parameterFragment (number : Nat) (p : ParameterClause) (h : p.IsInline) :
    (parameterFragment number p h).opening = "<param name=\"" ++ escapeMarkup p.name ++ "\">" := by
  show '<' :: ("param" ++ (" name=\"" ++ escapeMarkup p.name ++ "\"") ++ ">" : Text) = _
  simp only [List.append_assoc]
  rfl

theorem markup_parameterFragment (number : Nat) (p : ParameterClause) (h : p.IsInline) :
    (parameterFragment number p h).markup = parameterLine number p := by
  have hclosing : (parameterFragment number p h).closing = "</param>" := rfl
  unfold Fragment.markup parameterLine
  rw [opening_parameterFragment, text_parameterFragment, hclosing, placeholder_eq]

theorem markup_returnFragment (number : Nat) (r : ReturnClause) (h : r.IsInline) :
    (returnFragment number r h).markup = returnLine number r := by
  have hopening : (returnFragment number r h).opening = "<returns>" := rfl
  have hclosing : (returnFragment number r h).closing = "</returns>" := rfl
  unfold Fragment.markup returnLine
  rw [hopening, text_returnFragment, hclosing, placeholder_eq]

theorem map_markup_parameterFragments (number : Nat) (ps : List ParameterClause)
    (h : ∀ p ∈ ps, p.IsInline) :
    (parameterFragments number ps h).map Fragment.markup = parameterLines number ps := by
  induction ps generalizing number with
  | nil => rfl
  | cons p ps ih =>
    rw [parameterFragments, List.map_cons, markup_parameterFragment, ih, parameterLines]

theorem map_markup_returnFragments (number : Nat) (r : Option ReturnClause)
    (h : ∀ c, r = some c → c.IsInline) :
    (returnFragments number r h).map Fragment.markup = (r.map (returnLine number)).toList := by
  cases r with
  | none => rfl
  | some r =>
    rw [returnFragments, List.map_cons, List.map_nil, markup_returnFragment]
    rfl

theorem ObjectHeader.joinLines_skeletonLines (h : ObjectHeader) (hi : Inline (objectSentence h)) :
    joinLines h.skeletonLines = joinLines ([summaryFragment _ hi].map Fragment.markup) := by
  rw [ObjectHeader.skeletonLines, ← List.append_nil (summaryLines _), joinLines_summaryLines _ hi]
  rfl

/-- **The skeleton of a procedure is made of its fragments.** -/
theorem ProcedureHeader.joinLines_skeletonLines (h : ProcedureHeader) (hi : h.IsInline) :
    joinLines h.skeletonLines = joinLines ((h.fragments hi).map Fragment.markup) := by
  rw [ProcedureHeader.skeletonLines, List.append_assoc,
    joinLines_summaryLines _ (hi.name.append inline_period), ProcedureHeader.fragments,
    List.map_cons, List.map_append, map_markup_parameterFragments, map_markup_returnFragments]

/-! ## Tags -/

theorem isEmpty_tidy_of_mem {t : Text} (h : '$' ∈ t) : (tidy t).isEmpty = false :=
  List.isEmpty_eq_false_iff.2 (tidy_ne_nil h (by decide))

theorem hasText_summaryFragment (default : Text) (h : Inline default) :
    hasText (some (summaryFragment default h).asTag) = true := by
  have hmem : '$' ∈ (summaryFragment default h).text :=
    List.mem_cons_of_mem _ (List.mem_append_left _ (mem_placeholderText 1 default))
  rw [hasText, Option.any_some, Fragment.asTag, isEmpty_tidy_of_mem hmem]
  rfl

/-- The tag for a return value is there, and has text, exactly if anything is returned. -/
theorem head?_returnFragments (number : Nat) (r : Option ReturnClause)
    (h : ∀ c, r = some c → c.IsInline) :
    (((returnFragments number r h).map Fragment.asTag).head?).isSome = r.isSome ∧
      hasText ((returnFragments number r h).map Fragment.asTag).head? = r.isSome := by
  cases r with
  | none => exact ⟨rfl, rfl⟩
  | some r =>
    refine ⟨rfl, ?_⟩
    rw [returnFragments, List.map_cons, List.head?_cons, hasText, Option.any_some,
      Fragment.asTag_text, text_returnFragment, isEmpty_tidy_of_mem (mem_placeholderText _ _)]
    rfl

/-- The skeleton of an object is read as a summary. -/
theorem ObjectHeader.read_skeletonLines (h : ObjectHeader) (hi : Inline (objectSentence h)) :
    Tags.read (joinLines h.skeletonLines) = { summary := some (summaryFragment _ hi).asTag } := by
  rw [h.joinLines_skeletonLines hi, Tags.read_joinLines_markup, List.foldl_cons, List.foldl_nil,
    Tags.addFragment_summary rfl]
  rfl

theorem parameterFragments_param (number : Nat) (ps : List ParameterClause)
    (h : ∀ p ∈ ps, p.IsInline) :
    ∀ e ∈ parameterFragments number ps h, e.tag = ("param" : Text) ∧ e.name.isSome = true := by
  induction ps generalizing number with
  | nil =>
    intro e he
    cases he
  | cons p ps ih =>
    intro e he
    rcases List.mem_cons.1 he with rfl | he
    · exact ⟨rfl, rfl⟩
    · exact ih (number + 1) _ e he

/-- **The skeleton of a procedure is read as the tags it was made with.** -/
theorem ProcedureHeader.read_skeletonLines (h : ProcedureHeader) (hi : h.IsInline) :
    Tags.read (joinLines h.skeletonLines) =
      { summary := some (summaryFragment _ (hi.name.append inline_period)).asTag
        parameters := (parameterFragments 2 h.parameters hi.parameters).map Fragment.asParameter
        returns := ((returnFragments (2 + h.parameters.length) h.returns hi.returns).map
          Fragment.asTag).head? } := by
  rw [h.joinLines_skeletonLines hi, Tags.read_joinLines_markup, ProcedureHeader.fragments,
    List.foldl_cons, Tags.addFragment_summary rfl, List.foldl_append,
    Tags.foldl_addFragment_parameters (parameterFragments_param _ _ _)]
  generalize hi.returns = hr
  generalize h.returns = r at hr
  cases r with
  | none => rfl
  | some r =>
    rw [returnFragments, List.foldl_cons, List.foldl_nil, Tags.addFragment_returns rfl]
    rfl

end DocAudit
