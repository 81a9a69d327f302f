import DocAudit.Proofs.Documentation.Above
import DocAudit.Proofs.Reading.Pass

/-!
# A blank line more: the model

Two passes are run side by side, one over a file and one over the file with a blank line more. A
line does the same in both, with every number of a line moved; the blank line itself does nothing.

* `SourceObject.moveLines`: the model with its lines moved.
* `step_insertBlank`: one line of the two passes; `readFrom_insertBlank`: all the lines.
* `object?_insertBlank`: the model of the longer file is that of the file, with its lines moved.
-/

namespace DocAudit

/-! ## Moved lines -/

/-- The place with its line moved. -/
def Position.moveLines (k : Nat) (p : Position) : Position := { p with line := moveLine k p.line }

/-- The range with its lines moved. -/
def Range.moveLines (k : Nat) (r : Range) : Range := ⟨r.start.moveLines k, r.stop.moveLines k⟩

/-- The procedure with its lines moved. -/
def Procedure.moveLines (k : Nat) (p : Procedure) : Procedure :=
  { p with line := moveLine k p.line, range := p.range.moveLines k }

/-- The object with its line and those of its procedures moved, for a line more before line `k`. -/
def SourceObject.moveLines (k : Nat) (o : SourceObject) : SourceObject :=
  { o with line := moveLine k o.line, procedures := o.procedures.map (Procedure.moveLines k) }

/-- The reading with the lines of its object moved. -/
def Reading.moveLines (k : Nat) (r : Reading) : Reading :=
  { r with object := r.object.map (SourceObject.moveLines k) }

@[simp] theorem Reading.moveLines_braces (k : Nat) (r : Reading) :
    (r.moveLines k).braces = r.braces := rfl

@[simp] theorem Reading.moveLines_inComment (k : Nat) (r : Reading) :
    (r.moveLines k).inComment = r.inComment := rfl

/-- What a line does, with the lines of the reading moved. The line itself is line `n`. -/
def Step.moveLines (k n : Nat) : Step → Step
  | .next r extra => .next (r.moveLines k) (moveLine k (n + extra) - moveLine k n)
  | .done r => .done (r.moveLines k)
  | .fragment => .fragment

theorem Reading.result_moveLines (k : Nat) (r : Reading) :
    (r.moveLines k).result = r.result.map (SourceObject.moveLines k) := by
  simp only [Reading.result, Reading.moveLines, Option.map_map]
  rfl

theorem SourceObject.moveLines_addProcedure (k : Nat) (o : SourceObject) (p : Procedure) :
    (o.addProcedure p).moveLines k = (o.moveLines k).addProcedure (p.moveLines k) := by
  simp only [SourceObject.moveLines, SourceObject.addProcedure, List.map_append, List.map_cons,
    List.map_nil]

namespace SourceFile

variable {f : SourceFile} {s : Settings} {k n : Nat}

theorem moveLine_add_sub (k n extra : Nat) :
    moveLine k n + (moveLine k (n + extra) - moveLine k n) = moveLine k (n + extra) := by
  unfold moveLine
  split <;> split <;> omega

/-! ## Declarations -/

theorem procedure_insertBlank (hk : k ≤ f.lineCount) (hfit : f.AttributesFit) (first last : Nat)
    (declaration : Text) (header : ProcedureHeader) (traits : Traits) :
    (f.insertBlank k).procedure (moveLine k first) (moveLine k last) declaration header traits =
      (f.procedure first last declaration header traits).moveLines k := by
  unfold procedure
  rw [documentationAbove_insertBlank hk hfit, signatureRange, line?_insertBlank,
    line?_insertBlank]
  rfl

theorem emptyObject_insertBlank (hk : k ≤ f.lineCount) (hfit : f.AttributesFit) (n : Nat)
    (header : ObjectHeader) :
    (f.insertBlank k).emptyObject (moveLine k n) header =
      (f.emptyObject n header).moveLines k := by
  unfold emptyObject
  rw [documentationAbove_insertBlank hk hfit]
  rfl

/-- The header that opens on a line moves with it. -/
theorem headerAt?_insertBlank (hk : k ≤ f.lineCount) (hfit : f.SignaturesFit) {line : Text}
    (hl : f.line? n = some line) :
    headerAt? line ((f.insertBlank k).linesFrom (moveLine k n + 1)) =
      (headerAt? line (f.linesFrom (n + 1))).map
        fun (header, whole, extra) =>
          (header, whole, moveLine k (n + extra) - moveLine k n) := by
  have hline : (f.insertBlank k).line? (moveLine k n) = some line := by
    rw [line?_insertBlank, hl]
  rcases Nat.lt_or_ge n k with h | h
  · have hpos := Nat.sub_pos_of_lt h
    have hlen := sub_le_length_linesFrom (n := n) hk
    have hlines := linesFrom_insertBlank_of_le hk (Nat.le_of_lt h)
    rw [linesFrom_eq_cons hl] at hlines hlen
    rw [moveLine_of_lt h] at hline ⊢
    rw [linesFrom_eq_cons hline] at hlines
    cases hf : headerAt? line (f.linesFrom (n + 1)) with
    | some found =>
      obtain ⟨header, whole, extra⟩ := found
      obtain ⟨hs, hw, hh⟩ := headerAt?_eq_some_iff.1 hf
      have hclosed := parametersClosed_of_read? (t := whole) (by rw [hh]; rfl)
      have hmax : extra < maxSignatureLines := by
        have hat : f.signatureAt n = (whole, n + extra) := by
          rw [signatureAt, linesFrom_eq_cons hl, hw]
        have := hfit n (by rw [hl]; exact hs) (by rw [hat]; exact hclosed)
        rw [hat] at this
        exact Nat.lt_of_add_lt_add_left this
      refine headerAt?_eq_some_iff.2 ⟨hs, ?_, hh⟩
      rw [hlines, readSignature_insertIdx hpos hlen hw hclosed hmax,
        moveLine_sub (Nat.le_of_lt h)]
    | none =>
      cases hg : headerAt? line ((f.insertBlank k).linesFrom (n + 1)) with
      | none => rfl
      | some found =>
        -- A header in the longer file has closed parameters, and so it is one in the file.
        obtain ⟨header, whole, extra⟩ := found
        obtain ⟨hs, hw, hh⟩ := headerAt?_eq_some_iff.1 hg
        have hclosed := parametersClosed_of_read? (t := whole) (by rw [hh]; rfl)
        rw [hlines] at hw
        have hclosed' : parametersClosed (readSignature (line :: f.linesFrom (n + 1))).1 = true :=
          parametersClosed_readSignature_of_insertIdx hpos hlen (by rw [hw]; exact hclosed)
        have hmax : (readSignature (line :: f.linesFrom (n + 1))).2 < maxSignatureLines := by
          have := hfit n (by rw [hl]; exact hs)
            (by rw [signatureAt, linesFrom_eq_cons hl]; exact hclosed')
          rw [signatureAt, linesFrom_eq_cons hl] at this
          exact Nat.lt_of_add_lt_add_left this
        rw [readSignature_insertIdx hpos hlen rfl hclosed' hmax] at hw
        obtain ⟨rfl, -⟩ := Prod.mk.injEq _ _ _ _ ▸ hw
        rw [headerAt?_eq_some_iff.2 ⟨hs, rfl, hh⟩] at hf
        cases hf
  · rw [moveLine_of_le h, linesFrom_insertBlank_succ hk (Nat.le_succ_of_le h)]
    cases headerAt? line (f.linesFrom (n + 1)) with
    | none => rfl
    | some found =>
      obtain ⟨header, whole, extra⟩ := found
      simp only [Option.map_some]
      rw [moveLine_of_le (Nat.le_trans h (Nat.le_add_right n extra)), Nat.add_right_comm,
        Nat.add_sub_cancel_left]

/-! ## One line in the two passes -/

theorem readProcedure_insertBlank (hk : k ≤ f.lineCount) (hfit : f.AttributesFit)
    (first last : Nat) (declaration : Text) (header : ProcedureHeader) (r : Reading) :
    (f.insertBlank k).readProcedure s (moveLine k first) (moveLine k last) declaration header
        (r.moveLines k) =
      (f.readProcedure s first last declaration header r).moveLines k := by
  unfold readProcedure Reading.moveLines
  simp only [procedure_insertBlank hk hfit, Option.map_map]
  split
  · cases r.object with
    | none => rfl
    | some o =>
      simp only [Option.map_some, Function.comp_apply, SourceObject.moveLines_addProcedure]
  · rfl

theorem readBody_moveLines (k : Nat) (o : SourceObject) (line : Text) (r : Reading) :
    readBody (o.moveLines k) line (r.moveLines k) = (readBody o line r).moveLines k := by
  have hnil : (o.moveLines k).procedures = [] ↔ o.procedures = [] := List.map_eq_nil_iff
  unfold readBody
  simp only [hnil]
  rfl

theorem readPlain_insertBlank (hk : k ≤ f.lineCount) (hfit : f.AttributesFit) (n : Nat)
    (line : Text) (r : Reading) :
    (f.insertBlank k).readPlain (moveLine k n) line (r.moveLines k) =
      (f.readPlain n line r).moveLines k n := by
  unfold readPlain
  cases ho : r.object with
  | some o =>
    have ho' : (r.moveLines k).object = some (o.moveLines k) := by
      rw [Reading.moveLines, ho]
      rfl
    rw [ho']
    simp only [readBody_moveLines, Reading.moveLines_braces]
    by_cases hc : (readBody o line r).braces.closed = true
    · simp only [if_pos hc]
      rfl
    · simp only [if_neg hc, Step.moveLines, Nat.add_zero, Nat.sub_self]
  | none =>
    have ho' : (r.moveLines k).object = none := by
      rw [Reading.moveLines, ho]
      rfl
    rw [ho']
    simp only
    by_cases hb : (!r.declared && isBlockBoundary line) = true
    · have hb' : (!(r.moveLines k).declared && isBlockBoundary line) = true := hb
      rw [if_pos hb, if_pos hb']
      rfl
    · have hb' : ¬ (!(r.moveLines k).declared && isBlockBoundary line) = true := hb
      rw [if_neg hb, if_neg hb']
      cases ObjectHeader.read? line with
      | some header =>
        simp only [emptyObject_insertBlank hk hfit, Step.moveLines, Nat.add_zero, Nat.sub_self]
        rfl
      | none => simp only [Step.moveLines, Nat.add_zero, Nat.sub_self, Reading.moveLines, ho,
          Option.map_none]

/-- **A line does in the longer file what it does in the file.** -/
theorem step_insertBlank (hk : k ≤ f.lineCount) (hattributes : f.AttributesFit)
    (hsignatures : f.SignaturesFit) {line : Text} (hl : f.line? n = some line) (r : Reading) :
    (f.insertBlank k).step s (moveLine k n) line
        ((f.insertBlank k).linesFrom (moveLine k n + 1)) (r.moveLines k) =
      (f.step s n line (f.linesFrom (n + 1)) r).moveLines k n := by
  have hline : (f.insertBlank k).line? (moveLine k n) = some line := by
    rw [line?_insertBlank, hl]
  have ha := readAttribute?_insertBlank hk hattributes n
  rw [linesFrom_eq_cons hl, linesFrom_eq_cons hline] at ha
  unfold step
  rw [Reading.moveLines_inComment]
  by_cases hc : (r.inComment || ("/*" : Text).isPrefixOf (trim line)) = true
  · simp only [if_pos hc, Step.moveLines, Nat.add_zero, Nat.sub_self]
    rfl
  · simp only [if_neg hc]
    by_cases hs : (allBlank line || isInlineComment line || isStructuredComment line) = true
    · simp only [if_pos hs, Step.moveLines, Nat.add_zero, Nat.sub_self]
    · simp only [if_neg hs, ha]
      cases readAttribute? (line :: f.linesFrom (n + 1)) with
      | some found => rfl
      | none =>
        simp only [Option.map_none]
        rw [headerAt?_insertBlank hk hsignatures hl]
        cases headerAt? line (f.linesFrom (n + 1)) with
        | some found =>
          simp only [Option.map_some, moveLine_add_sub,
            readProcedure_insertBlank hk hattributes]
          rfl
        | none => exact readPlain_insertBlank hk hattributes n line r

theorem step_blank (f : SourceFile) (s : Settings) (n : Nat) (rest : List Text) (r : Reading) :
    f.step s n [] rest r = .next r 0 := by
  unfold step
  by_cases hc : r.inComment = true
  · have heq : ({ r with inComment := !Text.has "*/" (trim []) } : Reading) = r := by
      cases r
      exact congrArg _ hc.symm
    rw [if_pos (by rw [hc]; rfl), heq]
  · rw [Bool.not_eq_true] at hc
    rw [if_neg (by rw [hc]; decide), if_pos (by decide)]

/-! ## The two passes -/

/-- The pass comes to the new line and goes on below it. -/
theorem readFrom_insertBlank_self (hk : k ≤ f.lineCount) (r : Reading) :
    (f.insertBlank k).readFrom s k ((f.insertBlank k).linesFrom k) r =
      (f.insertBlank k).readFrom s (k + 1) ((f.insertBlank k).linesFrom (k + 1)) r := by
  rw [readFrom_of_some (line?_insertBlank_self hk), step_blank]

/-- Past the lines that line `n` takes, the pass comes to where the next line is now. -/
theorem readFrom_moveLine_succ (hk : k ≤ f.lineCount) (n : Nat) (r : Reading) :
    (f.insertBlank k).readFrom s (moveLine k n + 1)
        ((f.insertBlank k).linesFrom (moveLine k n + 1)) r =
      (f.insertBlank k).readFrom s (moveLine k (n + 1))
        ((f.insertBlank k).linesFrom (moveLine k (n + 1))) r := by
  rcases Nat.lt_trichotomy (n + 1) k with h | h | h
  · rw [moveLine_of_lt h, moveLine_of_lt (Nat.lt_of_succ_lt h)]
  · rw [moveLine_of_le (Nat.le_of_eq h.symm), moveLine_of_lt (by omega), h,
      readFrom_insertBlank_self hk]
  · rw [moveLine_of_le (Nat.le_of_lt h), moveLine_of_le (by omega)]

theorem readFrom_insertBlank (hk : k ≤ f.lineCount) (hattributes : f.AttributesFit)
    (hsignatures : f.SignaturesFit) (n : Nat) (r : Reading) :
    (f.insertBlank k).readFrom s (moveLine k n)
        ((f.insertBlank k).linesFrom (moveLine k n)) (r.moveLines k) =
      (f.readFrom s n (f.linesFrom n) r).map (SourceObject.moveLines k) := by
  -- Every step leaves fewer lines.
  induction hm : f.lineCount - n using Nat.strongRecOn generalizing n r with
  | ind m ih =>
    have hline := line?_insertBlank f k n
    cases hl : f.line? n with
    | none =>
      rw [hl] at hline
      rw [readFrom_of_none hl, readFrom_of_none hline, Reading.result_moveLines]
    | some line =>
      have hn := line?_lt hl
      rw [hl] at hline
      rw [readFrom_of_some hl, readFrom_of_some hline,
        step_insertBlank hk hattributes hsignatures hl]
      cases f.step s n line (f.linesFrom (n + 1)) r with
      | next r' extra =>
        simp only [Step.moveLines]
        rw [Nat.add_right_comm, moveLine_add_sub, readFrom_moveLine_succ hk,
          Nat.add_right_comm n extra 1]
        exact ih _ (by omega) _ _ rfl
      | done r' => exact Reading.result_moveLines k r'
      | fragment => rfl

/-- **A blank line is transparent to the model.** Wherever it is put, in a signature, an
attribute, a documentation block, a block comment or a body, the model has its lines moved and is
otherwise the same. -/
theorem object?_insertBlank (hk : k ≤ f.lineCount) (hattributes : f.AttributesFit)
    (hsignatures : f.SignaturesFit) :
    (f.insertBlank k).object? s = (f.object? s).map (SourceObject.moveLines k) := by
  have hrun := readFrom_insertBlank (s := s) hk hattributes hsignatures 0 {}
  simp only [object?]
  refine Eq.trans ?_ hrun
  rcases Nat.eq_zero_or_pos k with rfl | h
  · exact readFrom_insertBlank_self hk {}
  · rw [moveLine_of_lt h]
    rfl

theorem attributesFit_of_lineCount_le (h : f.lineCount ≤ maxAttributeLines) :
    f.AttributesFit := by
  intro first whole last ha
  have := (attributeAt?_le ha).2.2.1
  omega

theorem signaturesFit_of_lineCount_le (h : f.lineCount ≤ maxSignatureLines) :
    f.SignaturesFit := by
  intro first hs _
  cases hl : f.line? first with
  | none =>
    rw [hl] at hs
    cases hs
  | some line =>
    have hn := line?_lt hl
    have hle := (gatherSignature_extra_le (codeOf line) maxSignatureLines
      (f.linesFrom (first + 1))).2
    rw [length_linesFrom] at hle
    have hlast : (f.signatureAt first).2 =
        first + (gatherSignature (codeOf line) maxSignatureLines (f.linesFrom (first + 1))).2 := by
      rw [signatureAt, linesFrom_eq_cons hl]
      rfl
    omega

/-- A file with an attribute of two lines, below a documentation block. -/
def splitAttribute : SourceFile where
  path := ⟨"Tools.al"⟩
  lines := ["codeunit 1 Tools", "\x7b", "/// <summary>Opens.</summary>", "[Obsolete('Use Close.',",
    "'24.0')]", "procedure Open()", "\x7d"]

theorem object?_insertBlank_splitAttribute :
    ∃ o, splitAttribute.object? {} = some o ∧
      o.procedures.map (fun p => (p.line, p.obsolete.isSome, p.documentation.isSome)) =
        [(5, true, true)] ∧
      (splitAttribute.insertBlank 4).object? {} = some (o.moveLines 4) := by
  have hsome : ((splitAttribute.object? {}).map fun o =>
      o.procedures.map fun p => (p.line, p.obsolete.isSome, p.documentation.isSome)) =
        some [(5, true, true)] := by
    decide +kernel
  obtain ⟨o, ho, hlines⟩ := Option.map_eq_some_iff.1 hsome
  refine ⟨o, ho, hlines, ?_⟩
  rw [object?_insertBlank (by decide) (attributesFit_of_lineCount_le (by decide))
    (signaturesFit_of_lineCount_le (by decide)), ho]
  rfl

end SourceFile

end DocAudit
