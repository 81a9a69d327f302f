import DocAudit.Proofs.Reading.Pass

/-!
# The allow-list

The settings say which procedures are modelled. Two passes over a file are run side by side, one
under the settings and one that keeps every procedure. They stand at the same line, in the same
braces and below the same attributes all along, and differ in two things only: the first holds the
procedures that its settings keep, and it may have taken in other properties.

* `SourceObject.keep`, `Reading.keep`: what the settings leave of an object and of a reading.
* `step_keep`: one line of the two passes; `readFrom_keep`: all the lines.
* `object?_procedures`: the allow-list filters the procedures of a model.
-/

namespace DocAudit

/-- Whether a procedure passes the allow-list. -/
def Settings.keeps (s : Settings) (p : Procedure) : Bool := s.allows p.category p.isTry

/-- The object with the procedures that the settings keep. -/
def SourceObject.keep (s : Settings) (o : SourceObject) : SourceObject :=
  { o with procedures := o.procedures.filter s.keeps }

/-- The object before its properties are applied. -/
def SourceObject.unmarked (o : SourceObject) : SourceObject :=
  { o with access := .everywhere, obsolete := none }

/-- The reading with the procedures that the settings keep, and with properties of its own. -/
def Reading.keep (s : Settings) (properties : Properties) (r : Reading) : Reading :=
  { r with object := r.object.map (SourceObject.keep s), properties }

/-- What a line does, with the procedures that the settings keep. -/
def Step.keep (s : Settings) (properties : Properties) : Step → Step
  | .next r extra => .next (r.keep s properties) extra
  | .done r => .done (r.keep s properties)
  | .fragment => .fragment

section

variable (s : Settings) (properties : Properties) (r : Reading)

@[simp] theorem Reading.keep_braces : (r.keep s properties).braces = r.braces := rfl

@[simp] theorem Reading.keep_declared : (r.keep s properties).declared = r.declared := rfl

@[simp] theorem Reading.keep_inComment : (r.keep s properties).inComment = r.inComment := rfl

end

theorem SourceObject.keep_addProcedure (s : Settings) (o : SourceObject) (p : Procedure) :
    (o.addProcedure p).keep s = if s.keeps p then (o.keep s).addProcedure p else o.keep s := by
  simp only [SourceObject.keep, SourceObject.addProcedure, List.filter_append, List.filter_cons,
    List.filter_nil]
  split
  · rfl
  · rw [List.append_nil]

namespace SourceFile

variable {f : SourceFile} {s s₀ : Settings}

/-- Whether a line stands directly in the braces of the object and declares nothing. Only such a
line can hold a property. -/
def isPropertyLine (line : Text) (rest : List Text) (r : Reading) : Bool :=
  !(r.inComment || ("/*" : Text).isPrefixOf (trim line)) &&
    !(allBlank line || isInlineComment line || isStructuredComment line) &&
    (readAttribute? (line :: rest)).isNone && (headerAt? line rest).isNone &&
    r.object.isSome && r.braces.depth == 1

/-- The properties after a line, for a pass that has met the procedures of a reading and holds
those that the settings keep. -/
def propertiesAfter (s : Settings) (properties : Properties) (line : Text) (rest : List Text)
    (r : Reading) : Properties :=
  if isPropertyLine line rest r ∧ r.object.all (·.procedures.all (!s.keeps ·)) then
    properties.absorb (trim line)
  else properties

/-! ## One line in the two passes -/

theorem readProcedure_keep (h₀ : s₀.procedureTypes = []) (properties : Properties)
    (first last : Nat) (declaration : Text) (header : ProcedureHeader) (r : Reading) :
    f.readProcedure s first last declaration header (r.keep s properties) =
      (f.readProcedure s₀ first last declaration header r).keep s properties := by
  have hall : s₀.allowsTraits (Traits.of r.attributes) = true :=
    s₀.allows_of_procedureTypes_eq_nil h₀ _ _
  have hkeeps : s.keeps (f.procedure first last declaration header (Traits.of r.attributes)) =
      s.allowsTraits (Traits.of r.attributes) := rfl
  simp only [readProcedure, Reading.keep, hall, if_true, Option.map_map]
  cases r.object with
  | none => simp only [Option.map_none, ite_self]
  | some o =>
    simp only [Option.map_some, Function.comp_apply, SourceObject.keep_addProcedure, hkeeps]
    split <;> rfl

/-- The properties after a line that declares nothing, for a pass that has met some procedures. -/
theorem readBody_keep (s : Settings) (properties : Properties) (o : SourceObject) (line : Text)
    (r : Reading) :
    readBody (o.keep s) line (r.keep s properties) =
      (readBody o line r).keep s
        (if r.braces.depth = 1 ∧ o.procedures.all (!s.keeps ·) = true then
          properties.absorb (trim line)
        else properties) := by
  have hbare : (o.keep s).procedures = [] ↔ o.procedures.all (!s.keeps ·) = true := by
    rw [SourceObject.keep, List.filter_eq_nil_iff, List.all_eq_true]
    simp only [Bool.not_eq_true, Bool.not_eq_true']
  unfold readBody
  simp only [hbare]
  rfl

theorem readPlain_keep (s : Settings) (properties : Properties) (n : Nat) (line : Text)
    (r : Reading) :
    f.readPlain n line (r.keep s properties) =
      (f.readPlain n line r).keep s
        (if r.object.isSome ∧ r.braces.depth = 1 ∧
            r.object.all (·.procedures.all (!s.keeps ·)) = true then
          properties.absorb (trim line)
        else properties) := by
  unfold readPlain
  cases ho : r.object with
  | some o =>
    have ho' : (r.keep s properties).object = some (o.keep s) := by
      rw [Reading.keep, ho]
      rfl
    simp only [ho', readBody_keep, Reading.keep_braces, Option.isSome_some, true_and,
      Option.all_some]
    by_cases hc : (readBody o line r).braces.closed = true
    · simp only [if_pos hc]
      rfl
    · simp only [if_neg hc]
      rfl
  | none =>
    have ho' : (r.keep s properties).object = none := by
      rw [Reading.keep, ho]
      rfl
    simp only [ho', Reading.keep_declared, Option.isSome_none, Bool.false_eq_true, false_and,
      if_false]
    by_cases hb : (!r.declared && isBlockBoundary line) = true
    · simp only [if_pos hb]
      rfl
    · simp only [if_neg hb]
      cases ObjectHeader.read? line with
      | some header => rfl
      | none => simp only [Step.keep, Reading.keep, ho, Option.map_none]

/-- **A line does the same in the two passes**, but for the procedures that are kept and for the
properties that are taken in. -/
theorem step_keep (h₀ : s₀.procedureTypes = []) (properties : Properties) (n : Nat) (line : Text)
    (rest : List Text) (r : Reading) :
    f.step s n line rest (r.keep s properties) =
      (f.step s₀ n line rest r).keep s (propertiesAfter s properties line rest r) := by
  unfold propertiesAfter isPropertyLine step
  rw [Reading.keep_inComment]
  by_cases hc : (r.inComment || ("/*" : Text).isPrefixOf (trim line)) = true
  · simp only [hc, if_true, Bool.not_true, Bool.false_and, Bool.false_eq_true, false_and,
      if_false]
    rfl
  · simp only [if_neg hc]
    rw [Bool.not_eq_true] at hc
    by_cases hs : (allBlank line || isInlineComment line || isStructuredComment line) = true
    · simp only [hs, if_true, Bool.not_true, Bool.and_false, Bool.false_and, Bool.false_eq_true,
        false_and, if_false]
      rfl
    · simp only [if_neg hs]
      rw [Bool.not_eq_true] at hs
      cases readAttribute? (line :: rest) with
      | some found =>
        simp only [Option.isNone_some, Bool.and_false, Bool.false_and, Bool.false_eq_true,
          false_and, if_false]
        rfl
      | none =>
        cases headerAt? line rest with
        | some found =>
          simp only [Option.isNone_some, Bool.and_false, Bool.false_and, Bool.false_eq_true,
            false_and, if_false, readProcedure_keep h₀]
          rfl
        | none =>
          simp only [hc, hs, Option.isNone_none, Bool.not_false, Bool.and_true, Bool.true_and,
            Bool.and_eq_true, beq_iff_eq, and_assoc, readPlain_keep]

/-! ## The two passes -/

theorem Reading.result_keep (s : Settings) (properties : Properties) (r : Reading) :
    (r.keep s properties).result.map SourceObject.unmarked =
      r.result.map fun o => (o.keep s).unmarked := by
  simp only [Reading.result, Reading.keep, Option.map_map]
  rfl

/-- The two passes come to the same object, but for its procedures and for what its properties
say. -/
theorem readFrom_keep (h₀ : s₀.procedureTypes = []) (properties : Properties) (n : Nat)
    (r : Reading) :
    (f.readFrom s n (f.linesFrom n) (r.keep s properties)).map SourceObject.unmarked =
      (f.readFrom s₀ n (f.linesFrom n) r).map fun o => (o.keep s).unmarked := by
  -- Every step leaves fewer lines.
  induction hm : f.lineCount - n using Nat.strongRecOn generalizing n r properties with
  | ind m ih =>
    cases hl : f.line? n with
    | none =>
      rw [readFrom_of_none hl, readFrom_of_none hl]
      exact Reading.result_keep s properties r
    | some line =>
      have hn := line?_lt hl
      rw [readFrom_of_some hl, readFrom_of_some hl, step_keep h₀]
      cases f.step s₀ n line (f.linesFrom (n + 1)) r with
      | next r' extra => exact ih _ (by omega) _ _ _ rfl
      | done r' => exact Reading.result_keep s _ r'
      | fragment => rfl

/-- The models under two settings, one of which keeps every procedure. -/
theorem unmarked_object? (h₀ : s₀.procedureTypes = []) :
    (f.object? s).map SourceObject.unmarked =
      (f.object? s₀).map fun o => (o.keep s).unmarked := readFrom_keep h₀ {} 0 {}

/-- **The allow-list only filters procedures.** A file has a model under the settings exactly when
it has one under the same settings without an allow-list, and its procedures are then those of the
other model that the settings allow, unchanged and in the same order. -/
theorem object?_procedures (f : SourceFile) (s : Settings) :
    (f.object? s).map (·.procedures) =
      (f.object? { s with procedureTypes := [] }).map fun o =>
        o.procedures.filter fun p => s.allows p.category p.isTry := by
  have hall : ({ s with procedureTypes := [] } : Settings).procedureTypes = [] := rfl
  have h := congrArg (Option.map (·.procedures)) (unmarked_object? (f := f) (s := s) hall)
  rw [Option.map_map, Option.map_map] at h
  exact h

end SourceFile

end DocAudit
