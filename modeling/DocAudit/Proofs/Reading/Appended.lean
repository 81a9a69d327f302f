import DocAudit.Proofs.Documentation.Above
import DocAudit.Proofs.Reading.Settled

/-!
# Lines after the last

Lines below the brace that closes an object should not show in its model. They can show in two
ways. A signature or an attribute that is still open at the end of the file takes them in, whatever
braces stand between. And a brace that closes the object on its header line does not end the pass.
There is no other way.

* `SourceFile.appendLines`: the file with further lines.
* `step_appendLines`, `Reaches.appendLines`: the pass in the longer file.
* `object?_appendLines_iff`: when no further lines show in the model.
* `exists_object?_appendLines_ne`: they do not always stay out of it.
-/

namespace DocAudit

deriving instance DecidableEq for Step

/-- Whether the braces of the object are back to none open after a line. -/
def Step.closesBraces : Step → Bool
  | .next r _ => r.braces.closed
  | .done r => r.braces.closed
  | .fragment => false

/-! ## The longer file -/

namespace SourceFile

variable {f : SourceFile} {s : Settings} {n : Nat} {line : Text} {r : Reading}

/-- The file with further lines after its last. -/
def appendLines (f : SourceFile) (ls : List Text) : SourceFile := { f with lines := f.lines ++ ls }

theorem appendLines_appendLines (f : SourceFile) (ls ls' : List Text) :
    (f.appendLines ls).appendLines ls' = f.appendLines (ls ++ ls') := by
  rw [appendLines, appendLines, appendLines, List.append_assoc]

theorem lineCount_appendLines (f : SourceFile) (ls : List Text) :
    (f.appendLines ls).lineCount = f.lineCount + ls.length := List.length_append

theorem line?_appendLines (h : n < f.lineCount) (ls : List Text) :
    (f.appendLines ls).line? n = f.line? n := List.getElem?_append_left h

theorem linesFrom_appendLines (h : n ≤ f.lineCount) (ls : List Text) :
    (f.appendLines ls).linesFrom n = f.linesFrom n ++ ls := List.drop_append_of_le_length h

theorem documentationAbove_appendLines (h : n ≤ f.lineCount) (ls : List Text) :
    (f.appendLines ls).documentationAbove n = f.documentationAbove n := by
  rw [documentationAbove, documentationAbove,
    commentsAbove_congr fun i hi => line?_appendLines (Nat.lt_of_lt_of_le hi h) ls]

theorem procedure_appendLines {first last : Nat} (hfirst : first < f.lineCount)
    (hlast : last < f.lineCount) (ls : List Text) :
    (f.appendLines ls).procedure first last = f.procedure first last := by
  funext declaration header traits
  rw [procedure, procedure, documentationAbove_appendLines (Nat.le_of_lt hfirst), signatureRange,
    signatureRange, line?_appendLines hfirst, line?_appendLines hlast]

/-- A line does in the longer file what it does in the file, if it is settled. -/
theorem step_appendLines (hl : f.line? n = some line) (ls : List Text)
    (hsettled : IsCode r line → Settled line (f.linesFrom (n + 1))) :
    (f.appendLines ls).step s n line ((f.appendLines ls).linesFrom (n + 1)) r =
      f.step s n line (f.linesFrom (n + 1)) r := by
  have hn := line?_lt hl
  rw [linesFrom_appendLines hn]
  unfold step
  by_cases hc : (r.inComment || ("/*" : Text).isPrefixOf (trim line)) = true
  · rw [if_pos hc, if_pos hc]
  · rw [if_neg hc, if_neg hc]
    by_cases hs : (allBlank line || isInlineComment line || isStructuredComment line) = true
    · rw [if_pos hs, if_pos hs]
    · rw [if_neg hs, if_neg hs]
      rw [Bool.not_eq_true] at hc hs
      obtain ⟨ha, hh⟩ := hsettled ⟨hc, hs⟩ ls
      rw [ha, hh]
      cases readAttribute? (line :: f.linesFrom (n + 1)) with
      | some found => rfl
      | none =>
        cases hfound : headerAt? line (f.linesFrom (n + 1)) with
        | some found =>
          obtain ⟨header, whole, extra⟩ := found
          have hle := headerAt?_le hfound
          rw [length_linesFrom] at hle
          simp only [readProcedure, procedure_appendLines hn (by omega : n + extra < f.lineCount)]
        | none =>
          simp only [readPlain, emptyObject, documentationAbove_appendLines (Nat.le_of_lt hn)]
          rfl

/-! ## The pass in the longer file -/

/-- The lines above line `bound` that the pass looks at are settled. -/
def SettledAbove (f : SourceFile) (s : Settings) (bound : Nat) : Prop :=
  ∀ n line r, n < bound → Reaches f s n r → f.line? n = some line → IsCode r line →
    Settled line (f.linesFrom (n + 1))

theorem Reaches.appendLines (h : Reaches f s n r) (hsettled : f.SettledAbove s n)
    (ls : List Text) : Reaches (f.appendLines ls) s n r := by
  induction h with
  | start => exact .start
  | @next n extra line r r' hr hl hs ih =>
    have habove : f.SettledAbove s n := fun m l q hm => hsettled m l q (by omega)
    refine .next (ih habove) ((line?_appendLines (line?_lt hl) ls).trans hl) ?_
    rw [step_appendLines hl ls fun hc => hsettled n line r (by omega) hr hl hc]
    exact hs

/-- Some line brings the braces of the object back to none open. -/
def ClosesBraces (f : SourceFile) (s : Settings) : Prop :=
  ∃ n line r, Reaches f s n r ∧ f.line? n = some line ∧
    (f.step s n line (f.linesFrom (n + 1)) r).closesBraces = true

/-- The pass ends with the brace that closes the object. -/
def EndsClosed (f : SourceFile) (s : Settings) : Prop :=
  ∃ n line r r', Reaches f s n r ∧ f.line? n = some line ∧
    f.step s n line (f.linesFrom (n + 1)) r = .done r'

/-! ## An object stays -/

/-- Only the braces of an object are counted, and an object that has been met stays. -/
theorem step_object (hr : r.object = none → r.braces.closed = false) (n : Nat) (line : Text)
    (rest : List Text) :
    match f.step s n line rest r with
    | .next r' _ => (r'.object = none → r'.braces.closed = false) ∧
        (r.object.isSome = true → r'.object.isSome = true)
    | .done r' => r'.object.isSome = true
    | .fragment => r.object = none := by
  have heffect := effect_step (f := f) (s := s) n line rest r
  generalize f.step s n line rest r = effect at heffect
  cases heffect with
  | comment => exact ⟨hr, id⟩
  | skip => exact ⟨hr, id⟩
  | attributeRead => exact ⟨hr, id⟩
  | signatureRead =>
    refine ⟨fun hnone => hr ?_, fun hsome => ?_⟩
    · simp only [readProcedure] at hnone
      split at hnone
      · exact Option.map_eq_none_iff.1 hnone
      · exact hnone
    · simp only [readProcedure]
      split
      · rw [Option.isSome_map]
        exact hsome
      · exact hsome
  | plain _ _ _ hp =>
    cases hp with
    | @body o ho =>
      have hsome : r.object.isSome = true := by rw [ho]; rfl
      refine ⟨fun hnone => ?_, fun _ => hsome⟩
      rw [show r.object = none from hnone] at ho
      cases ho
    | close ho =>
      show r.object.isSome = true
      rw [ho]
      rfl
    | header => exact ⟨fun hnone => absurd hnone (Option.some_ne_none _), fun _ => rfl⟩
    | outside ho => exact ⟨hr, id⟩
    | fragment ho => exact ho

theorem Reaches.closed_eq_false (h : Reaches f s n r) :
    r.object = none → r.braces.closed = false := by
  induction h with
  | start => exact fun _ => rfl
  | @next n extra line r r' _ _ h ih =>
    have hstep := step_object (f := f) (s := s) ih n line (f.linesFrom (n + 1))
    rw [h] at hstep
    exact hstep.1

theorem isSome_result (ho : r.object.isSome = true) : r.result.isSome = true := by
  rw [Reading.result, Option.isSome_map]
  exact ho

theorem Reaches.isSome_object? (h : Reaches f s n r) (ho : r.object.isSome = true) :
    (f.object? s).isSome = true := by
  -- Every step leaves fewer lines.
  induction hm : f.lineCount - n using Nat.strongRecOn generalizing n r with
  | ind m ih =>
    cases hl : f.line? n with
    | none =>
      rw [h.object?_eq, readFrom_of_none hl]
      exact isSome_result ho
    | some line =>
      have hn := line?_lt hl
      have hstep := step_object (f := f) (s := s) h.closed_eq_false n line (f.linesFrom (n + 1))
      cases hs : f.step s n line (f.linesFrom (n + 1)) r with
      | next r' extra =>
        rw [hs] at hstep
        exact ih _ (by omega) (h.next hl hs) (hstep.2 ho) rfl
      | done r' =>
        rw [hs] at hstep
        rw [h.object?_eq, readFrom_of_some hl, hs]
        exact isSome_result hstep
      | fragment =>
        rw [hs] at hstep
        rw [show r.object = none from hstep] at ho
        cases ho

theorem ClosesBraces.isSome_object? (h : f.ClosesBraces s) : (f.object? s).isSome = true := by
  obtain ⟨n, line, r, hr, hl, hclosed⟩ := h
  have hstep := step_object (f := f) (s := s) hr.closed_eq_false n line (f.linesFrom (n + 1))
  cases hs : f.step s n line (f.linesFrom (n + 1)) r with
  | next r' extra =>
    rw [hs] at hclosed hstep
    refine (hr.next hl hs).isSome_object? (Option.isSome_iff_ne_none.2 fun hnone => ?_)
    have hopen : r'.braces.closed = false := hstep.1 hnone
    rw [show r'.braces.closed = true from hclosed] at hopen
    cases hopen
  | done r' =>
    rw [hs] at hstep
    rw [hr.object?_eq, readFrom_of_some hl, hs]
    exact isSome_result hstep
  | fragment =>
    rw [hs] at hclosed
    cases hclosed

/-! ## Lines that show -/

/-- A procedure that stands on one line. -/
def lineProcedure : Text := "procedure Added()"

/-- An attribute that puts the procedure below it among those of a type. -/
def typeAttribute : ProcedureType → Text
  | .tryFunction => "[TryFunction]"
  | .ofCategory .eventPublisher => "[IntegrationEvent]"
  | .ofCategory .eventSubscriber => "[EventSubscriber]"
  | .ofCategory .normal => "[Scope]"
  | .ofCategory .test => "[Test]"

/-- Lines that add a procedure of a type to any open object. The first one takes the attributes
that stand above. -/
def addingLines (t : ProcedureType) : List Text := [lineProcedure, typeAttribute t, lineProcedure]

/-- The line leaves no attributes, and adds a procedure to the object if the attributes above it
allow one. -/
theorem exists_step_lineProcedure (hc : r.inComment = false) (n : Nat) (rest : List Text) :
    ∃ r', f.step s n lineProcedure rest r = .next r' 0 ∧ r'.inComment = false ∧
      r'.attributes = [] ∧ r'.object.isSome = r.object.isSome ∧
      (s.allowsTraits (Traits.of r.attributes) = true →
        ∀ o, r.object = some o →
          ∃ p : Procedure, p.line = n ∧ r'.object = some (o.addProcedure p)) := by
  have hread : (ProcedureHeader.read? (codeOf lineProcedure)).isSome = true := by decide +kernel
  obtain ⟨header, hheader⟩ := Option.isSome_iff_exists.1 hread
  have hat : headerAt? lineProcedure rest = some (header, codeOf lineProcedure, 0) :=
    headerAt?_eq_some_iff.2
      ⟨by decide +kernel, gatherSignature_of_closed (by decide +kernel) _ _, hheader⟩
  refine ⟨f.readProcedure s n n (codeOf lineProcedure) header r, ?_, hc, rfl, ?_, ?_⟩
  · exact step_of_headerAt? ⟨by rw [hc]; decide, by decide⟩
      (readAttribute?_of_not_opensAttribute (by decide) _) hat
  · simp only [readProcedure]
    split
    · exact Option.isSome_map
    · rfl
  · intro hallowed o ho
    simp only [readProcedure, hallowed, ho, if_true]
    exact ⟨_, rfl, rfl⟩

theorem step_typeAttribute (hc : r.inComment = false) (t : ProcedureType) (n : Nat)
    (rest : List Text) :
    f.step s n (typeAttribute t) rest r =
      .next { r with attributes := r.attributes ++ [typeAttribute t] } 0 := by
  -- One attribute for each type, all of them closed and code.
  have hattribute : opensAttribute (typeAttribute t) = true ∧
      (({} : Brackets).after (codeOf (typeAttribute t))).depth = 0 ∧
      isAttribute (codeOf (typeAttribute t)) = true ∧
      codeOf (typeAttribute t) = typeAttribute t ∧
      ("/*" : Text).isPrefixOf (trim (typeAttribute t)) = false ∧
      (allBlank (typeAttribute t) || isInlineComment (typeAttribute t) ||
        isStructuredComment (typeAttribute t)) = false := by
    cases t with
    | ofCategory c => cases c <;> decide
    | tryFunction => decide
  obtain ⟨hopen, hdepth, hwhole, hcode, hstar, hskip⟩ := hattribute
  have hread : readAttribute? (typeAttribute t :: rest) = some (typeAttribute t, 0) := by
    rw [readAttribute?_eq_some_iff, gatherAttribute_of_depth_eq_zero hdepth, if_pos hwhole, hcode]
    exact ⟨hopen, rfl⟩
  exact step_of_readAttribute? ⟨by rw [hc, hstar]; rfl, hskip⟩ hread

theorem categoryOrNormal_typeAttribute (c : Category) :
    (Traits.of [typeAttribute (.ofCategory c)]).categoryOrNormal = c := by
  cases c <;> decide

theorem isTry_typeAttribute : (Traits.of [typeAttribute .tryFunction]).isTry = true := by decide

theorem exists_allowsTraits_typeAttribute (s : Settings) :
    ∃ t, s.allowsTraits (Traits.of [typeAttribute t]) = true := by
  cases htypes : s.procedureTypes with
  | nil => exact ⟨.tryFunction, s.allows_of_procedureTypes_eq_nil htypes _ _⟩
  | cons t types =>
    have hmem : s.procedureTypes.contains t = true := by
      rw [htypes]
      exact List.contains_iff_mem.2 List.mem_cons_self
    refine ⟨t, ?_⟩
    rw [Settings.allowsTraits, Settings.allows, Bool.or_eq_true, Bool.or_eq_true]
    cases t with
    | ofCategory c =>
      rw [categoryOrNormal_typeAttribute]
      exact Or.inr hmem
    | tryFunction =>
      rw [isTry_typeAttribute]
      exact Or.inl (Or.inr hmem)

/-- Wherever a pass with an object comes to lines that add a procedure, the object has one there. -/
theorem exists_procedure_of_addingLines {t : ProcedureType}
    (ht : s.allowsTraits (Traits.of [typeAttribute t]) = true) (hr : Reaches f s n r)
    (hc : r.inComment = false) (ho : r.object.isSome = true)
    (hlines : f.linesFrom n = addingLines t) :
    ∃ o, f.object? s = some o ∧ ∃ p ∈ o.procedures, n ≤ p.line := by
  have hline (i : Nat) : f.line? (n + i) = (addingLines t)[i]? := by
    rw [← hlines, linesFrom, List.getElem?_drop]
    rfl
  obtain ⟨r₁, hstep₁, hc₁, hnone, ho₁, -⟩ :=
    exists_step_lineProcedure (f := f) (s := s) hc n (f.linesFrom (n + 1))
  have hr₁ := hr.next (hline 0) hstep₁
  have hr₂ := hr₁.next (hline 1) (step_typeAttribute hc₁ t _ _)
  obtain ⟨r₃, hstep₃, -, -, -, hadd⟩ := exists_step_lineProcedure (f := f) (s := s)
    (r := { r₁ with attributes := r₁.attributes ++ [typeAttribute t] }) hc₁ (n + 2)
    (f.linesFrom (n + 3))
  have hr₃ := hr₂.next (hline 2) hstep₃
  obtain ⟨o, hobject⟩ := Option.isSome_iff_exists.1 (ho₁.trans ho)
  rw [hnone] at hadd
  obtain ⟨p, hp, hadded⟩ := hadd ht o hobject
  refine ⟨r₃.properties.apply (o.addProcedure p), ?_, p, ?_, by omega⟩
  · rw [hr₃.object?_eq, readFrom_of_none (hline 3), Reading.result, hadded]
    rfl
  · exact List.mem_append_right _ (List.mem_singleton_self p)

/-- If the pass comes to the end of the file whatever stands below, then some longer file has
another object than one that stands within the file. -/
theorem exists_object?_ne {o : SourceObject} (ho : o.InOrder f.lineCount)
    (hc : r.inComment = false) (hr : ∀ ls, Reaches (f.appendLines ls) s f.lineCount r) :
    ∃ ls, (f.appendLines ls).object? s ≠ some o := by
  have hbelow (ls : List Text) : (f.appendLines ls).linesFrom f.lineCount = ls := List.drop_left
  cases hobject : r.object with
  | none =>
    refine ⟨[], fun heq => ?_⟩
    rw [(hr []).object?_eq, readFrom_of_none (linesFrom_eq_nil_iff.1 (hbelow [])), Reading.result,
      hobject] at heq
    cases heq
  | some met =>
    obtain ⟨t, ht⟩ := exists_allowsTraits_typeAttribute s
    refine ⟨addingLines t, fun heq => ?_⟩
    obtain ⟨o', ho', p, hp, hle⟩ := exists_procedure_of_addingLines ht (hr _) hc
      (by rw [hobject]; rfl) (hbelow _)
    obtain rfl : o = o' := Option.some.inj (heq.symm.trans ho')
    have hstop := ho.line_le_stop p hp
    have hlt := ho.stop_lt p hp
    omega

/-! ## When nothing shows -/

/-- What opens on a line that is not settled can be made to end with the file, and stays as it is
in any longer file. -/
theorem exists_step_of_not_settled (hl : f.line? n = some line) (hc : IsCode r line)
    (h : ¬ Settled line (f.linesFrom (n + 1))) :
    ∃ ls, Settled line ((f.appendLines ls).linesFrom (n + 1)) ∧ ∃ r' extra,
      (f.appendLines ls).step s n line ((f.appendLines ls).linesFrom (n + 1)) r = .next r' extra ∧
      r'.inComment = r.inComment ∧ n + 1 + extra = (f.appendLines ls).lineCount := by
  have hn := line?_lt hl
  obtain ⟨ls, hread⟩ := exists_of_not_settled h
  have hlen :
      n + 1 + ((f.linesFrom (n + 1)).length + ls.length) = (f.appendLines ls).lineCount := by
    rw [length_linesFrom, lineCount_appendLines]
    omega
  refine ⟨ls, ?_⟩
  rw [linesFrom_appendLines hn]
  rcases hread with ⟨whole, ha⟩ | ⟨ha, header, whole, hh⟩
  · exact ⟨settled_of_readAttribute? ha, _, _, step_of_readAttribute? hc ha, rfl, hlen⟩
  · exact ⟨settled_of_headerAt? hh, _, _, step_of_headerAt? hc ha hh, rfl, hlen⟩

/-- If no further lines show, all lines are settled. -/
theorem settledAbove_of_object?_eq {o : SourceObject}
    (h : ∀ ls, (f.appendLines ls).object? s = some o) (ho : f.object? s = some o) (bound : Nat) :
    f.SettledAbove s bound := by
  induction bound with
  | zero => exact fun n line r hn => absurd hn (Nat.not_lt_zero n)
  | succ bound ih =>
    intro n line r hn hr hl hcode
    by_cases hlt : n < bound
    · exact ih n line r hlt hr hl hcode
    · obtain rfl : n = bound := by omega
      by_contra hopen
      obtain ⟨ls, hsettled, r', extra, hstep, hcomment, hend⟩ :=
        exists_step_of_not_settled (s := s) hl hcode hopen
      have hl' : (f.appendLines ls).line? n = some line :=
        (line?_appendLines (line?_lt hl) ls).trans hl
      have hreach (ls' : List Text) :
          Reaches ((f.appendLines ls).appendLines ls') s (f.appendLines ls).lineCount r' := by
        have hr' : Reaches ((f.appendLines ls).appendLines ls') s n r := by
          rw [appendLines_appendLines]
          exact hr.appendLines ih _
        rw [← hend]
        refine hr'.next ((line?_appendLines (line?_lt hl') ls').trans hl') ?_
        rw [step_appendLines hl' ls' fun _ => hsettled]
        exact hstep
      have hinside : o.InOrder (f.appendLines ls).lineCount :=
        (inOrder_of_object? ho).mono (by rw [lineCount_appendLines]; omega)
      have hopenComment : r'.inComment = false := by
        rw [hcomment]
        exact (Bool.or_eq_false_iff.1 hcode.1).1
      obtain ⟨ls', hne⟩ := exists_object?_ne hinside hopenComment hreach
      rw [appendLines_appendLines] at hne
      exact hne (h _)

/-- A line that ends a block comment. -/
def commentEnd : Text := "*/"

theorem step_commentEnd (hc : r.inComment = true) (n : Nat) (rest : List Text) :
    f.step s n commentEnd rest r = .next { r with inComment := false } 0 := by
  have hends : (!Text.has "*/" (trim commentEnd)) = false := by decide
  unfold step
  rw [if_pos (by rw [hc]; rfl), hends]

/-- If no further lines show, the pass ends with a brace. -/
theorem endsClosed_of_object?_eq {o : SourceObject}
    (h : ∀ ls, (f.appendLines ls).object? s = some o) (ho : f.object? s = some o) :
    f.EndsClosed s := by
  have hsettled := settledAbove_of_object?_eq h ho f.lineCount
  obtain ⟨r, hends, -⟩ := exists_ends_of_object? ho
  cases hends with
  | closed hr hl hs => exact ⟨_, _, _, _, hr, hl, hs⟩
  | @exhausted n r hr hl =>
    exfalso
    obtain rfl : n = f.lineCount :=
      Nat.le_antisymm hr.le_lineCount (List.getElem?_eq_none_iff.1 hl)
    have hreach (ls : List Text) := hr.appendLines hsettled ls
    cases hcomment : r.inComment with
    | false =>
      obtain ⟨ls, hne⟩ := exists_object?_ne (inOrder_of_object? ho) hcomment hreach
      exact hne (h ls)
    | true =>
      -- The comment is ended first.
      have hreach' (ls : List Text) : Reaches ((f.appendLines [commentEnd]).appendLines ls) s
          (f.appendLines [commentEnd]).lineCount { r with inComment := false } := by
        rw [appendLines_appendLines, lineCount_appendLines]
        refine (hreach _).next ?_ (step_commentEnd hcomment _ _)
        have hat : (f.lines ++ (commentEnd :: ls))[f.lines.length]? = some commentEnd := by
          rw [List.getElem?_append_right (Nat.le_refl _), Nat.sub_self]
          rfl
        exact hat
      have hinside : o.InOrder (f.appendLines [commentEnd]).lineCount :=
        (inOrder_of_object? ho).mono (by rw [lineCount_appendLines]; omega)
      obtain ⟨ls, hne⟩ := exists_object?_ne hinside rfl hreach'
      rw [appendLines_appendLines] at hne
      exact hne (h _)

/-- A file with a brace that closes its object keeps its object whatever lines are appended exactly
when the pass ends with such a brace and all lines above are settled. -/
theorem object?_appendLines_iff (h : f.ClosesBraces s) :
    (∀ ls, (f.appendLines ls).object? s = f.object? s) ↔
      f.EndsClosed s ∧ f.SettledAbove s f.lineCount := by
  obtain ⟨o, ho⟩ := Option.isSome_iff_exists.1 h.isSome_object?
  rw [ho]
  constructor
  · intro hall
    exact ⟨endsClosed_of_object?_eq hall ho, settledAbove_of_object?_eq hall ho _⟩
  · rintro ⟨⟨n, line, r, r', hr, hl, hs⟩, hsettled⟩ ls
    have hn := line?_lt hl
    have habove : f.SettledAbove s n := fun m l q hm => hsettled m l q (by omega)
    have hl' : (f.appendLines ls).line? n = some line := (line?_appendLines hn ls).trans hl
    rw [← ho, (hr.appendLines habove ls).object?_eq, hr.object?_eq, readFrom_of_some hl',
      readFrom_of_some hl, step_appendLines hl ls fun hc => hsettled n line r hn hr hl hc, hs]

/-! ## Two files -/

/-- A file with a half-written signature, which the edge of a body below it ends. -/
def halfWritten : SourceFile where
  path := ⟨"Tools.al"⟩
  lines := ["codeunit 1 Tools \x7b", "procedure Open(", "end;", "\x7d"]

/-- The object of the file, without anything in it. -/
def halfWrittenObject : SourceObject :=
  halfWritten.emptyObject 0 ⟨"codeunit", some 1, "Tools", none⟩

theorem object?_appendLines_halfWritten :
    halfWritten.ClosesBraces {} ∧
      ∀ ls, (halfWritten.appendLines ls).object? {} = halfWritten.object? {} := by
  -- The readings after the header and after each of the two lines below it.
  let r₁ : Reading := { object := some halfWrittenObject, declared := true, braces := ⟨1, true⟩ }
  let r₂ := readBody halfWrittenObject "procedure Open(" r₁
  let r₃ := readBody halfWrittenObject "end;" r₂
  have hheader : halfWritten.step {} 0 "codeunit 1 Tools \x7b" (halfWritten.linesFrom 1) {} =
      .next r₁ 0 := by decide +kernel
  have hopen : halfWritten.step {} 1 "procedure Open(" (halfWritten.linesFrom 2) r₁ =
      .next r₂ 0 := by decide +kernel
  have hedge : halfWritten.step {} 2 "end;" (halfWritten.linesFrom 3) r₂ = .next r₃ 0 := by
    decide +kernel
  have hdone : halfWritten.step {} 3 "\x7d" (halfWritten.linesFrom 4) r₃ =
      .done (readBody halfWrittenObject "\x7d" r₃) := by decide +kernel
  have hr : Reaches halfWritten {} 3 r₃ :=
    ((Reaches.start.next rfl hheader).next rfl hopen).next rfl hedge
  have hcloses : halfWritten.ClosesBraces {} := by
    refine ⟨3, "\x7d", r₃, hr, rfl, ?_⟩
    rw [hdone]
    decide +kernel
  refine ⟨hcloses, (object?_appendLines_iff hcloses).2 ⟨⟨3, "\x7d", r₃, _, hr, rfl, hdone⟩, ?_⟩⟩
  intro n line r hn _ hl _
  have hn : n < 4 := hn
  obtain rfl | rfl | rfl | rfl : n = 0 ∨ n = 1 ∨ n = 2 ∨ n = 3 := by omega
  · cases hl
    exact settled_of_plain (by decide +kernel) (by decide +kernel) _
  · cases hl
    exact settled_of_stop _ (Or.inr ⟨"end;", List.mem_cons_self, by decide +kernel⟩)
  · cases hl
    exact settled_of_plain (by decide +kernel) (by decide +kernel) _
  · cases hl
    exact settled_of_plain (by decide +kernel) (by decide +kernel) _

/-- A file whose object is closed on its header line. -/
def closedHeader : SourceFile where
  path := ⟨"Tools.al"⟩
  lines := ["codeunit 1 Tools \x7b \x7d"]

/-- A procedure below such a header joins the object. -/
theorem exists_object?_appendLines_ne :
    ¬ ∀ (f : SourceFile) (s : Settings) (ls : List Text), f.ClosesBraces s →
      (f.appendLines ls).object? s = f.object? s := by
  intro hall
  have hcloses : closedHeader.ClosesBraces {} :=
    ⟨0, "codeunit 1 Tools \x7b \x7d", {}, .start, rfl, by decide +kernel⟩
  have hobject : (closedHeader.object? {}).map (·.procedures.length) = some 0 := by decide +kernel
  have hlonger : ((closedHeader.appendLines [lineProcedure]).object? {}).map
      (·.procedures.length) = some 1 := by decide +kernel
  rw [hall closedHeader {} [lineProcedure] hcloses, hobject] at hlonger
  cases hlonger

end SourceFile

end DocAudit
