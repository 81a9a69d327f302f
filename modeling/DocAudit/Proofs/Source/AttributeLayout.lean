import DocAudit.Proofs.Source.Attribute
import DocAudit.Proofs.Source.Layout
import Mathlib.Data.List.Infix

/-!
# The layout of an attribute

An attribute may be written on several lines. Its square brackets stay open up to its last
character, whatever brackets stand in its literals, so its lines are gathered up to the last one and
the attribute is the one on one line.

* `ClosesLast`: the brackets close with the last character.
* `ClosesLast.depth_ne_zero`: at a break a bracket is open.
* `gatherAttribute_of_completes`: the lines of an attribute, gathered.
* `SourceFile.attributeAt?_laidOut`: the attribute does not depend on the layout, and neither does
  what it says about its procedure.
-/

namespace DocAudit

/-! ## Brackets -/

/-- The square brackets of a text, those in quotes aside, are open from its first character on, and
its last character closes them. -/
structure ClosesLast (t : Text) : Prop where
  isOpen : ∀ before after, t = before ++ after → before ≠ [] → after ≠ [] →
    (({} : Brackets).after before).depth ≠ 0
  closed : (({} : Brackets).after t).depth = 0

theorem closesLast_iff {t : Text} :
    ClosesLast t ↔
      (∀ before ∈ t.inits, before ≠ [] → before ≠ t → (({} : Brackets).after before).depth ≠ 0) ∧
        (({} : Brackets).after t).depth = 0 := by
  constructor
  · intro h
    refine ⟨?_, h.closed⟩
    intro before hbefore hne hproper
    obtain ⟨after, hafter⟩ := (List.mem_inits before t).1 hbefore
    apply h.isOpen before after hafter.symm hne
    intro hnil
    rw [hnil, List.append_nil] at hafter
    exact hproper hafter
  · intro h
    refine ⟨?_, h.2⟩
    intro before after hsplit hne hafter
    apply h.1 before ((List.mem_inits before t).2 ⟨after, hsplit.symm⟩) hne
    intro hwhole
    rw [hwhole] at hsplit
    exact hafter (List.self_eq_append_right.1 hsplit)

instance : DecidablePred ClosesLast := fun _ => decidable_of_iff' _ closesLast_iff

theorem Brackets.after_append (b : Brackets) (s t : Text) :
    b.after (s ++ t) = (b.after s).after t := List.foldl_append

theorem Brackets.step_space (b : Brackets) : b.step ' ' = b := by
  have hquoting : b.quoting.step ' ' = b.quoting := by
    cases b.quoting with
    | outside => rfl
    | double => rfl
    | single => rfl
  have hleft : ¬ (b.quoting = .outside ∧ ' ' = '[') := fun h => absurd h.2 (by decide)
  have hright : ¬ (b.quoting = .outside ∧ ' ' = ']') := fun h => absurd h.2 (by decide)
  rw [step, hquoting, if_neg hleft, if_neg hright]

/-- A space and the code behind it change the brackets as the code does. -/
theorem Brackets.after_joined (b : Brackets) (s t : Text) :
    b.after (s ++ ' ' :: t) = (b.after s).after t :=
  calc b.after (s ++ ' ' :: t) = (b.after s).after (' ' :: t) := after_append b s (' ' :: t)
    _ = ((b.after s).step ' ').after t := rfl
    _ = (b.after s).after t := by rw [step_space]

/-- **At a break a bracket is open.** -/
theorem ClosesLast.depth_ne_zero {whole gathered : Text} {may : Text → Prop} (h : ClosesLast whole)
    (hstop : StopsAtBreak may whole gathered) :
    ¬ (({} : Brackets).after gathered).depth = 0 := by
  obtain ⟨t, hwhole, -⟩ := hstop.exists_rest
  exact h.isOpen gathered (' ' :: t) hwhole hstop.ne_nil (List.cons_ne_nil ' ' t)

/-! ## Lines -/

/-- A line between those of an attribute is blank, or a comment that is not structured. -/
def PassedOver (line : Text) : Prop := Carries line [] ∧ isStructuredComment line = false

/-- **Lines that complete an attribute are gathered**, one after the other. -/
theorem gatherAttribute_of_completes {whole gathered : Text} {ls : List Text}
    (h : Completes (fun _ => True) PassedOver whole gathered ls)
    (hattribute : isAttribute whole = true) (hcloses : ClosesLast whole) (n : Nat)
    (rest : List Text) :
    gatherAttribute (({} : Brackets).after gathered) gathered (ls.length + n) (ls ++ rest) =
      some (whole, ls.length) := by
  induction h with
  | done =>
    rw [gatherAttribute_of_depth_eq_zero hcloses.closed, if_pos hattribute]
    rfl
  | @filler gathered line ls hstop hline h ih =>
    obtain ⟨hcarries, hcomment⟩ := hline
    have hcode := codeOf_of_carries_nil hcarries
    have hgo : ¬ (isBlockBoundary line || isStructuredComment line) = true := by
      rw [isBlockBoundary_of_codeOf_eq_nil hcode, hcomment]
      exact Bool.false_ne_true
    have hsame : (({} : Brackets).after gathered).after [] = ({} : Brackets).after gathered := rfl
    rw [List.length_cons, Nat.add_right_comm, List.cons_append,
      gatherAttribute_cons (hcloses.depth_ne_zero hstop) _ _ hgo, hcode, joinPiece, if_pos rfl,
      hsame, ih]
    rfl
  | @code gathered line ls hstop hcode hboundary h ih =>
    have hgo : ¬ (isBlockBoundary line || isStructuredComment line) = true := by
      rw [hboundary, isStructuredComment_of_code hcode]
      exact Bool.false_ne_true
    rw [List.length_cons, Nat.add_right_comm, List.cons_append,
      gatherAttribute_cons (hcloses.depth_ne_zero hstop) _ _ hgo, joinPiece, if_neg hcode,
      ← Brackets.after_joined, ih]
    rfl

/-! ## Attributes -/

theorem opensAttribute_of_isAttribute {line : Text} (h : isAttribute line = true) :
    opensAttribute line = true := by
  obtain ⟨a, hread⟩ := Option.isSome_iff_exists.1 h
  rw [Attribute.read?] at hread
  rw [opensAttribute]
  cases hline : codeOf line with
  | nil =>
    rw [hline] at hread
    cases hread
  | cons c rest =>
    rw [hline] at hread
    simp only at hread
    by_cases hc : c = '[' ∧ rest.getLast? = some ']'
    · rw [hc.1]
      rfl
    · rw [if_neg hc] at hread
      cases hread

/-- **The layout of an attribute does not matter.** An attribute that is broken at spaces is read as
it stands on one line, and says the same about its procedure. Each of its lines may be indented and
end with a comment, and blank lines and comments may stand in between, within the limit. -/
theorem SourceFile.attributeAt?_laidOut {f : SourceFile} {n : Nat} {t : Text}
    {pieces ls rest : List Text} (hattribute : isAttribute t = true) (hcloses : ClosesLast t)
    (hlayout : IsLayout (fun _ => True) PassedOver maxAttributeLines t pieces ls)
    (hlines : f.linesFrom n = ls ++ rest) :
    f.attributeAt? n = some (t, n + (ls.length - 1)) ∧
      Traits.of ((f.attributeAt? n).toList.map (·.1)) = Traits.of [t] := by
  obtain ⟨first, later, spare, rfl, hspare, hne, hprefix, hcompletes⟩ := hlayout.completes
  have hgather := gatherAttribute_of_completes hcompletes hattribute hcloses spare rest
  have hopens : opensAttribute first = true := by
    have hwhole := opensAttribute_of_isAttribute hattribute
    rw [opensAttribute, hlayout.codeOnly.codeOf_eq] at hwhole
    obtain ⟨after, hafter⟩ := hprefix
    rwa [opensAttribute, ← List.head?_append_of_ne_nil (codeOf first) hne, hafter]
  have hfound : f.attributeAt? n = some (t, n + later.length) := by
    apply attributeAt?_eq_some_iff.2
    refine ⟨later.length, ?_, rfl⟩
    rw [hlines, List.cons_append, readAttribute?_eq_some_iff, hspare]
    exact ⟨hopens, hgather⟩
  constructor
  · exact hfound
  · rw [hfound]
    rfl

/-- The pieces of an attribute that has brackets and slashes in a literal. -/
def literalPieces : List Text := ["[Obsolete(", "'Use [Post] // it.',", "'24.0')]"]

/-- The attribute on one line. -/
def literalAttribute : Text :=
  ("[Obsolete(" : Text) ++ ' ' :: (("'Use [Post] // it.'," : Text) ++ ' ' :: ("'24.0')]" : Text))

/-- The attribute on four lines, with a bracket in a comment. -/
def literalLines : List Text :=
  ["  [Obsolete( // now]", "    'Use [Post] // it.',", "  //", "'24.0')] "]

theorem laidOut_literalLines : LaidOut PassedOver literalPieces literalLines := by
  have hpassed : PassedOver "  //" :=
    ⟨⟨"  ", "", "//", rfl, rfl, rfl, Or.inr (by decide)⟩, by decide⟩
  apply @LaidOut.next _ _ _ []
  · exact ⟨"  ", " ", "// now]", rfl, rfl, rfl, Or.inr (by decide)⟩
  · intro l hl
    cases hl
  · apply @LaidOut.next _ _ _ ["  //"]
    · exact ⟨"    ", "", "", rfl, rfl, rfl, Or.inl rfl⟩
    · intro l hl
      rw [List.mem_singleton.1 hl]
      exact hpassed
    · exact LaidOut.last ⟨"", " ", "", rfl, rfl, rfl, Or.inl rfl⟩

/-- A file with these lines above a procedure. -/
def literalFile : SourceFile where
  path := ⟨"Post.al"⟩
  lines := literalLines ++ [("procedure Post()" : Text)]

theorem attributeAt?_literalFile :
    literalFile.attributeAt? 0 = some (literalAttribute, 3) ∧
      Traits.of ((literalFile.attributeAt? 0).toList.map (·.1)) = Traits.of [literalAttribute] := by
  have hlayout : IsLayout (fun _ => True) PassedOver maxAttributeLines literalAttribute
      literalPieces literalLines := {
    codeOnly := ⟨⟨by decide, by decide, by decide⟩, by decide +kernel, by decide +kernel⟩
    broken := by
      apply BrokenInto.part ⟨by decide, by decide, by decide⟩ trivial
      apply BrokenInto.part ⟨by decide, by decide, by decide⟩ trivial
      exact BrokenInto.whole _
    noSlash := by decide
    laidOut := laidOut_literalLines
    noBoundary := by decide
    length_le := by decide }
  exact SourceFile.attributeAt?_laidOut (by decide +kernel) (by decide +kernel) hlayout rfl

end DocAudit
