import DocAudit.Proofs.Source.Layout
import DocAudit.Proofs.Source.Signature

/-!
# The layout of a signature

The parameters of a header may be written on several lines. As long as the closing parenthesis is
on a later line, no reader takes the parameters for closed, so the lines are gathered up to that one
and the signature is the header on one line.

* `AwaitsClosing`: where a header may be broken.
* `not_parametersClosed_of_stops`: at such a break the parameters are not closed.
* `gatherSignature_of_completes`: the lines of a header, gathered.
* `SourceFile.signatureAt_laidOut`: the signature does not depend on the layout.
-/

namespace DocAudit

/-! ## Breaks -/

/-- What stands behind the parenthesis that closes the parameters of a header. -/
def afterParameters? (header : Text) : Option Text := do
  let (_, rest) ← ProcedureHead.read? header
  let (_, after) ← closeParenthesis .outside 0 rest
  return after

/-- The parenthesis that closes the parameters of the header is still to come in the text `t` at its
end. -/
def AwaitsClosing (header t : Text) : Prop :=
  ∃ after, afterParameters? header = some after ∧ (')' :: after) <:+ t

theorem afterParameters?_eq_some_iff {header after : Text} :
    afterParameters? header = some after ↔
      ∃ head rest inside, ProcedureHead.read? header = some (head, rest) ∧
        closeParenthesis .outside 0 rest = some (inside, after) := by
  simp only [afterParameters?, Option.bind_eq_bind, Option.bind_eq_some_iff]
  constructor
  · intro h
    obtain ⟨⟨head, rest⟩, hhead, ⟨inside, after'⟩, hclose, heq⟩ := h
    cases heq
    exact ⟨head, rest, inside, hhead, hclose⟩
  · intro h
    obtain ⟨head, rest, inside, hhead, hclose⟩ := h
    exact ⟨(head, rest), hhead, (inside, after), hclose, rfl⟩

theorem parametersClosed_eq (t : Text) : parametersClosed t = (afterParameters? t).isSome := by
  rw [Bool.eq_iff_iff, parametersClosed_iff, Option.isSome_iff_exists]
  constructor
  · intro h
    obtain ⟨head, rest, hhead, hclose⟩ := h
    obtain ⟨⟨inside, after⟩, hclose⟩ := Option.isSome_iff_exists.1 hclose
    exact ⟨after, afterParameters?_eq_some_iff.2 ⟨head, rest, inside, hhead, hclose⟩⟩
  · intro h
    obtain ⟨after, h⟩ := h
    obtain ⟨head, rest, inside, hhead, hclose⟩ := afterParameters?_eq_some_iff.1 h
    exact ⟨head, rest, hhead, Option.isSome_iff_exists.2 ⟨_, hclose⟩⟩

theorem afterParameters?_append {s after : Text} (h : afterParameters? s = some after) (t : Text) :
    afterParameters? (s ++ t) = some (after ++ t) := by
  obtain ⟨head, rest, inside, hhead, hclose⟩ := afterParameters?_eq_some_iff.1 h
  exact afterParameters?_eq_some_iff.2
    ⟨head, rest ++ t, inside, ProcedureHead.read?_append hhead t, closeParenthesis_append hclose t⟩

/-- **At a break the parameters are not closed.** -/
theorem not_parametersClosed_of_stops {header gathered : Text}
    (h : StopsAtBreak (AwaitsClosing header) header gathered) :
    ¬ parametersClosed gathered = true := by
  intro hclosed
  obtain ⟨t, hheader, after, hafter, hsuffix⟩ := h.exists_rest
  rw [parametersClosed_eq, Option.isSome_iff_exists] at hclosed
  obtain ⟨early, hearly⟩ := hclosed
  -- Closed early, the parameters would have all of the rest behind them, and more than there is.
  rw [hheader, afterParameters?_append hearly, Option.some.injEq] at hafter
  have hlength := hsuffix.length_le
  rw [← hafter, List.length_cons, List.length_append, List.length_cons] at hlength
  omega

/-! ## Lines -/

/-- **Lines that complete a header are gathered**, one after the other. -/
theorem gatherSignature_of_completes {header gathered : Text} {ls : List Text}
    (h : Completes (AwaitsClosing header) (Carries · []) header gathered ls)
    (hclosed : parametersClosed header = true) (n : Nat) (rest : List Text) :
    gatherSignature gathered (ls.length + n) (ls ++ rest) = (header, ls.length) := by
  induction h with
  | done => exact gatherSignature_of_closed hclosed _ _
  | filler hstop hline h ih =>
    have hcode := codeOf_of_carries_nil hline
    have hboundary := isBlockBoundary_of_codeOf_eq_nil hcode
    have hopen := not_parametersClosed_of_stops hstop
    rw [List.length_cons, Nat.add_right_comm, List.cons_append,
      gatherSignature_cons hopen (Bool.eq_false_iff.1 hboundary), hcode, joinPiece, if_pos rfl, ih]
  | code hstop hcode hboundary h ih =>
    have hopen := not_parametersClosed_of_stops hstop
    rw [List.length_cons, Nat.add_right_comm, List.cons_append,
      gatherSignature_cons hopen (Bool.eq_false_iff.1 hboundary), joinPiece, if_neg hcode, ih]

/-! ## Signatures -/

/-- **The layout of a signature does not matter.** A header that is broken before the parenthesis
that closes its parameters is read as it stands on one line. Each of its lines may be indented and
end with a comment, and blank lines and comments may stand in between, within the limit. -/
theorem SourceFile.signatureAt_laidOut {f : SourceFile} {n : Nat} {t : Text} {h : ProcedureHeader}
    {pieces ls rest : List Text} (hread : ProcedureHeader.read? t = some h)
    (hlayout : IsLayout (AwaitsClosing t) (Carries · []) maxSignatureLines t pieces ls)
    (hlines : f.linesFrom n = ls ++ rest) :
    f.signatureAt n = (t, n + (ls.length - 1)) ∧
      ProcedureHeader.read? (f.signatureAt n).1 = some h := by
  have hclosed : parametersClosed t = true := by
    apply parametersClosed_of_read?
    rw [hread]
    rfl
  obtain ⟨first, later, spare, rfl, hspare, -, -, hcompletes⟩ := hlayout.completes
  have hgather := gatherSignature_of_completes hcompletes hclosed spare rest
  have hsignature : f.signatureAt n = (t, n + later.length) := by
    rw [signatureAt, hlines, List.cons_append, readSignature, hspare, hgather]
  constructor
  · exact hsignature
  · rw [hsignature]
    exact hread

/-- The pieces of a header that has a parenthesis in a name. -/
def brokenPieces : List Text :=
  ["local procedure Pay(", "Rec: Record \"A (B)\";", "var Note: Text): Boolean;"]

/-- The header on one line. -/
def brokenHeader : Text :=
  ("local procedure Pay(" : Text) ++ ' ' ::
    (("Rec: Record \"A (B)\";" : Text) ++ ' ' :: ("var Note: Text): Boolean;" : Text))

/-- The header on five lines, with a parenthesis in a comment. -/
def brokenLines : List Text :=
  ["    local procedure Pay( // who)", "", "    // what", "  Rec: Record \"A (B)\";//)",
    "  var Note: Text): Boolean;  "]

theorem brokenInto_brokenPieces :
    BrokenInto (AwaitsClosing brokenHeader) brokenHeader brokenPieces := by
  have hafter : afterParameters? brokenHeader = some (": Boolean;" : Text) := by decide +kernel
  apply BrokenInto.part
  · exact ⟨by decide, by decide, by decide⟩
  · exact ⟨_, hafter, by decide⟩
  · apply BrokenInto.part
    · exact ⟨by decide, by decide, by decide⟩
    · exact ⟨_, hafter, by decide⟩
    · exact BrokenInto.whole _

theorem laidOut_brokenLines : LaidOut (Carries · []) brokenPieces brokenLines := by
  have hblank : Carries "" "" := ⟨"", "", "", rfl, rfl, rfl, Or.inl rfl⟩
  have hcomment : Carries "    // what" "" :=
    ⟨"    ", "", "// what", rfl, rfl, rfl, Or.inr (by decide)⟩
  apply @LaidOut.next _ _ _ ["", "    // what"]
  · exact ⟨"    ", " ", "// who)", rfl, rfl, rfl, Or.inr (by decide)⟩
  · intro l hl
    rcases List.mem_pair.1 hl with rfl | rfl
    · exact hblank
    · exact hcomment
  · apply @LaidOut.next _ _ _ []
    · exact ⟨"  ", "", "//)", rfl, rfl, rfl, Or.inr (by decide)⟩
    · intro l hl
      cases hl
    · exact LaidOut.last ⟨"  ", "  ", "", rfl, rfl, rfl, Or.inl rfl⟩

/-- A file with these lines from its second one on. -/
def brokenFile : SourceFile where
  path := ⟨"Pay.al"⟩
  lines := [] :: (brokenLines ++ [("begin" : Text), ("end;" : Text)])

theorem signatureAt_brokenFile :
    brokenFile.signatureAt 1 = (brokenHeader, 5) ∧
      ProcedureHeader.read? (brokenFile.signatureAt 1).1 =
        some ⟨some .withinObject, .procedure, "Pay", "Rec: Record \"A (B)\"; var Note: Text",
          some (": Boolean" : Text)⟩ := by
  have hread : ProcedureHeader.read? brokenHeader =
      some ⟨some .withinObject, .procedure, "Pay", "Rec: Record \"A (B)\"; var Note: Text",
        some (": Boolean" : Text)⟩ := by
    decide +kernel
  have hlayout : IsLayout (AwaitsClosing brokenHeader) (Carries · []) maxSignatureLines brokenHeader
      brokenPieces brokenLines := {
    codeOnly := ⟨⟨by decide, by decide, by decide⟩, by decide +kernel, by decide +kernel⟩
    broken := brokenInto_brokenPieces
    noSlash := by decide
    laidOut := laidOut_brokenLines
    noBoundary := by decide
    length_le := by decide }
  exact SourceFile.signatureAt_laidOut hread hlayout rfl

end DocAudit
