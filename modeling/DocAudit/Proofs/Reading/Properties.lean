import DocAudit.Proofs.Reading.AllowList
import DocAudit.Proofs.Reading.Order

/-!
# Properties and the allow-list

The pass takes in the properties of an object until it holds a procedure. A procedure that the
settings drop is not held, so that properties below it still count. Hence the settings show in
the access and the obsolescence of an object, and in no other field.

* `SourceFile.propertyLines`: the lines of a file that can hold a property, found without settings.
* `readFrom_marks`: the lines above the first procedure that is kept say what the properties are.
* `object?_eq_except_procedures_iff`: when the models under two settings agree but for procedures.
* `exists_object?_access_ne`: they do not always.
-/

namespace DocAudit

/-- What properties say of the object: its access and its obsolescence. -/
def Properties.marks (p : Properties) : Access × Option Obsolescence :=
  (p.access.getD .everywhere, p.stage.map fun stage => ⟨p.reason.getD [], stage⟩)

/-- The properties with some numbered lines taken into account. -/
def Properties.absorbAll (p : Properties) (lines : List (Nat × Text)) : Properties :=
  lines.foldl (fun p numbered => p.absorb (trim numbered.2)) p

/-- The line of the first procedure. -/
def SourceObject.firstLine? (o : SourceObject) : Option Nat := o.procedures.head?.map (·.line)

/-- Whether a line stands above another, if there is another. -/
def standsAbove (bound : Option Nat) (numbered : Nat × Text) : Bool := bound.all (numbered.1 < ·)

namespace SourceFile

variable {f : SourceFile} {s s' : Settings}

/-- The lines from number `n` on that can hold a property of the object, with their numbers. The
pass that finds them keeps every procedure. -/
def propertyLines (f : SourceFile) (n : Nat) (rest : List Text) (r : Reading) :
    List (Nat × Text) :=
  match rest with
  | [] => []
  | line :: others =>
    (if isPropertyLine line others r then [(n, line)] else []) ++
      match f.step {} n line others r with
      | .next r extra => f.propertyLines (n + 1 + extra) (others.drop extra) r
      | .done _ => []
      | .fragment => []
termination_by rest.length

/-- The properties in the lines above a line, or in all lines of the object. -/
def propertiesAbove (f : SourceFile) (bound : Option Nat) : Properties :=
  Properties.absorbAll {} ((f.propertyLines 0 f.lines {}).filter (standsAbove bound))

theorem propertyLines_of_none {n : Nat} (hl : f.line? n = none) (r : Reading) :
    f.propertyLines n (f.linesFrom n) r = [] := by
  rw [linesFrom_eq_nil_iff.2 hl, propertyLines]

theorem propertyLines_of_some {n : Nat} {line : Text} (hl : f.line? n = some line) (r : Reading) :
    f.propertyLines n (f.linesFrom n) r =
      (if isPropertyLine line (f.linesFrom (n + 1)) r then [(n, line)] else []) ++
        match f.step {} n line (f.linesFrom (n + 1)) r with
        | .next r' extra => f.propertyLines (n + 1 + extra) (f.linesFrom (n + 1 + extra)) r'
        | .done _ => []
        | .fragment => [] := by
  rw [linesFrom_eq_cons hl, propertyLines]
  cases f.step {} n line (f.linesFrom (n + 1)) r <;> simp only [drop_linesFrom]

/-! ## One line -/

theorem isPropertyLine_iff {line : Text} {rest : List Text} {r : Reading} :
    isPropertyLine line rest r = true ↔
      IsCode r line ∧ readAttribute? (line :: rest) = none ∧ headerAt? line rest = none ∧
        r.object.isSome = true ∧ r.braces.depth = 1 := by
  simp only [isPropertyLine, IsCode, Bool.and_eq_true, Bool.not_eq_true', Option.isNone_iff_eq_none,
    beq_iff_eq, and_assoc]

theorem step_of_isPropertyLine {n : Nat} {line : Text} {rest : List Text} {r : Reading}
    (h : isPropertyLine line rest r = true) :
    match f.step s n line rest r with
    | .next r' _ => r'.object = r.object
    | .done r' => r'.object = r.object
    | .fragment => False := by
  obtain ⟨-, -, hh, ho, -⟩ := isPropertyLine_iff.1 h
  have heffect := effect_step (f := f) (s := s) n line rest r
  generalize f.step s n line rest r = effect at heffect
  cases heffect with
  | comment => rfl
  | skip => rfl
  | attributeRead => rfl
  | signatureRead _ _ hread =>
    rw [hh] at hread
    cases hread
  | plain _ _ _ hp =>
    cases hp with
    | body => rfl
    | close => rfl
    | header hnone =>
      rw [hnone] at ho
      cases ho
    | outside => rfl
    | fragment hnone =>
      rw [hnone] at ho
      cases ho

/-- A line above the first procedure is taken into account, and no line below is. -/
theorem propertiesAfter_eq {n : Nat} {line : Text} {rest : List Text} {r : Reading}
    {properties : Properties} {o : SourceObject}
    (hmet : ∀ p ∈ (r.keep s properties).procedures, p.line < n)
    (hlater : isPropertyLine line rest r = true →
      ∃ later, o.procedures = (r.keep s properties).procedures ++ later ∧ ∀ p ∈ later, n < p.line) :
    propertiesAfter s properties line rest r =
      properties.absorbAll ((if isPropertyLine line rest r then [(n, line)] else []).filter
        (standsAbove o.firstLine?)) := by
  unfold propertiesAfter
  by_cases hp : isPropertyLine line rest r = true
  · obtain ⟨later, heq, hbelow⟩ := hlater hp
    obtain ⟨met, hobject⟩ := Option.isSome_iff_exists.1 (isPropertyLine_iff.1 hp).2.2.2.1
    have hkept : (r.keep s properties).procedures = met.procedures.filter s.keeps := by
      rw [Reading.procedures, Reading.keep, hobject]
      rfl
    rw [hkept] at hmet heq
    simp only [hp, hobject, Option.all_some, true_and, if_true]
    by_cases hnone : met.procedures.filter s.keeps = []
    · -- No procedure is held yet, so the first one stands below.
      have hall : met.procedures.all (!s.keeps ·) = true := by
        rw [List.filter_eq_nil_iff] at hnone
        exact List.all_eq_true.2 fun p hp => by simpa using hnone p hp
      have habove : standsAbove o.firstLine? (n, line) = true := by
        rw [standsAbove, SourceObject.firstLine?, heq, hnone, List.nil_append]
        cases later with
        | nil => rfl
        | cons p later => exact decide_eq_true (hbelow p List.mem_cons_self)
      rw [if_pos hall, List.filter_cons_of_pos habove]
      rfl
    · have hall : ¬ met.procedures.all (!s.keeps ·) = true := by
        intro h
        refine hnone (List.filter_eq_nil_iff.2 fun p hp => ?_)
        simpa using List.all_eq_true.1 h p hp
      have habove : ¬ standsAbove o.firstLine? (n, line) = true := by
        obtain ⟨p, kept, hcons⟩ := List.exists_cons_of_ne_nil hnone
        have hlt := hmet p (by rw [hcons]; exact List.mem_cons_self)
        rw [standsAbove, SourceObject.firstLine?, heq, hcons]
        simp only [List.cons_append, List.head?_cons, Option.map_some, Option.all_some,
          decide_eq_true_eq]
        omega
      rw [if_neg hall, List.filter_cons_of_neg habove]
      rfl
  · rw [if_neg fun h => hp h.1, if_neg hp]
    rfl

/-! ## The pass -/

/-- Nothing has been said yet of the object in a reading. -/
def Unmarked (r : Reading) : Prop :=
  ∀ o, r.object = some o → o.access = .everywhere ∧ o.obsolete = none

theorem step_unmarked (n : Nat) (line : Text) (rest : List Text) {r : Reading}
    (hr : Unmarked r) :
    match f.step s n line rest r with
    | .next r' _ => Unmarked r'
    | .done r' => Unmarked r'
    | .fragment => True := by
  have heffect := effect_step (f := f) (s := s) n line rest r
  generalize f.step s n line rest r = effect at heffect
  cases heffect with
  | comment => exact hr
  | skip => exact hr
  | attributeRead => exact hr
  | signatureRead =>
    intro o ho
    simp only [readProcedure] at ho
    split at ho
    · obtain ⟨o', ho', rfl⟩ := Option.map_eq_some_iff.1 ho
      exact hr o' ho'
    · exact hr o ho
  | plain _ _ _ hp =>
    cases hp with
    | body => exact fun o ho => hr o ho
    | close => exact fun o ho => hr o ho
    | header =>
      intro o ho
      cases ho
      exact ⟨rfl, rfl⟩
    | outside => exact hr
    | fragment => trivial

theorem Reaches.unmarked {n : Nat} {r : Reading} (h : Reaches f s n r) : Unmarked r := by
  induction h with
  | start => exact fun o ho => by cases ho
  | @next n extra line r r' _ _ h ih =>
    have hstep := step_unmarked (f := f) (s := s) n line (f.linesFrom (n + 1)) ih
    rw [h] at hstep
    exact hstep

theorem Reaches.line_lt_of_mem_keep {n : Nat} {r : Reading} {properties : Properties}
    (h : Reaches f {} n r) : ∀ p ∈ (r.keep s properties).procedures, p.line < n := by
  intro p hp
  cases ho : r.object with
  | none =>
    rw [Reading.procedures, Reading.keep, ho] at hp
    cases hp
  | some met =>
    rw [Reading.procedures, Reading.keep, ho] at hp
    have horder := h.orderedAbove met ho
    have hmem := (List.mem_filter.1 hp).1
    exact Nat.lt_of_le_of_lt (horder.line_le_stop p hmem) (horder.stop_lt p hmem)

/-- The properties of a reading say what the access and the obsolescence of its object are. -/
theorem marks_of_result {r : Reading} {properties : Properties} {o : SourceObject}
    (hr : Unmarked r) (h : (r.keep s properties).result = some o) :
    (o.access, o.obsolete) = properties.marks := by
  obtain ⟨kept, hkept, rfl⟩ := Option.map_eq_some_iff.1 h
  obtain ⟨met, hmet, rfl⟩ := Option.map_eq_some_iff.1 hkept
  obtain ⟨haccess, hobsolete⟩ := hr met hmet
  simp only [Properties.apply, SourceObject.keep, Reading.keep, haccess, hobsolete, Option.or_none]
  rfl

theorem absorbAll_append (p : Properties) (ls ls' : List (Nat × Text)) :
    p.absorbAll (ls ++ ls') = (p.absorbAll ls).absorbAll ls' := List.foldl_append

/-- **The lines above the first procedure that is kept say what the properties are**, for the rest
of a pass that has taken in some properties. -/
theorem readFrom_marks {n : Nat} {r : Reading} {properties : Properties} {o : SourceObject}
    (hr : Reaches f {} n r)
    (h : f.readFrom s n (f.linesFrom n) (r.keep s properties) = some o) :
    (o.access, o.obsolete) = (properties.absorbAll
      ((f.propertyLines n (f.linesFrom n) r).filter (standsAbove o.firstLine?))).marks := by
  -- Every step leaves fewer lines.
  induction hm : f.lineCount - n using Nat.strongRecOn generalizing n r properties with
  | ind m ih =>
    cases hl : f.line? n with
    | none =>
      rw [readFrom_of_none hl] at h
      rw [propertyLines_of_none hl]
      exact marks_of_result hr.unmarked h
    | some line =>
      have hn := line?_lt hl
      have hproperty := @step_of_isPropertyLine f {} n line (f.linesFrom (n + 1)) r
      rw [readFrom_of_some hl, step_keep (show ({} : Settings).procedureTypes = [] from rfl)] at h
      rw [propertyLines_of_some hl, List.filter_append, absorbAll_append]
      cases hs : f.step {} n line (f.linesFrom (n + 1)) r with
      | next r' extra =>
        rw [hs] at h hproperty
        rw [← propertiesAfter_eq hr.line_lt_of_mem_keep fun hp => ?_]
        · exact ih _ (by omega) (hr.next hl hs) h rfl
        · obtain ⟨later, heq, hle⟩ := exists_procedures_of_readFrom h
          refine ⟨later, ?_, fun p hp => ?_⟩
          · rw [heq, Reading.procedures, Reading.keep, hproperty hp]
            rfl
          · have := hle p hp
            omega
      | done r' =>
        rw [hs] at h hproperty
        have hunmarked := step_unmarked (f := f) (s := {}) n line (f.linesFrom (n + 1)) hr.unmarked
        rw [hs] at hunmarked
        rw [← propertiesAfter_eq hr.line_lt_of_mem_keep fun hp => ?_]
        · exact marks_of_result hunmarked h
        · refine ⟨[], ?_, fun p hp => absurd hp List.not_mem_nil⟩
          obtain ⟨kept, hkept, rfl⟩ := Option.map_eq_some_iff.1 h
          have hsame : (r'.keep s properties).object = (r.keep s properties).object := by
            rw [Reading.keep, Reading.keep, hproperty hp]
          rw [Reading.procedures, ← hsame, List.append_nil]
          exact congrArg (fun object => (object.map (·.procedures)).getD []) hkept.symm
      | fragment =>
        rw [hs] at h
        cases h

theorem marks_of_object? {o : SourceObject} (h : f.object? s = some o) :
    (o.access, o.obsolete) = (f.propertiesAbove o.firstLine?).marks :=
  readFrom_marks .start (show f.readFrom s 0 (f.linesFrom 0) (Reading.keep s {} {}) = some o from h)

/-- **The settings show in the properties of an object, and in nothing else but its procedures.**
Two models of a file agree on every field other than procedures exactly when the lines above the
first procedure of the one and the lines above the first procedure of the other say the same of the
object. On every field that no property sets they always agree. -/
theorem object?_eq_except_procedures_iff {o o' : SourceObject} (h : f.object? s = some o)
    (h' : f.object? s' = some o') :
    { o' with access := o.access, obsolete := o.obsolete, procedures := o.procedures } = o ∧
      ({ o' with procedures := o.procedures } = o ↔
        (f.propertiesAbove o.firstLine?).marks = (f.propertiesAbove o'.firstLine?).marks) := by
  have hkeep {s : Settings} {o : SourceObject} (h : f.object? s = some o) :
      (f.object? {}).map (fun o₀ => { o₀.unmarked with procedures := [] }) =
        some { o.unmarked with procedures := [] } := by
    have hall : ({} : Settings).procedureTypes = [] := rfl
    have hun := congrArg (Option.map fun o : SourceObject => { o with procedures := [] })
      (unmarked_object? (f := f) (s := s) hall)
    rw [h, Option.map_map, Option.map_map] at hun
    exact hun.symm
  have hfields :
      { o' with access := o.access, obsolete := o.obsolete, procedures := o.procedures } = o := by
    have heq := Option.some.inj ((hkeep h').symm.trans (hkeep h))
    exact congrArg (fun base : SourceObject =>
      { base with access := o.access, obsolete := o.obsolete, procedures := o.procedures }) heq
  refine ⟨hfields, ?_⟩
  rw [← marks_of_object? h, ← marks_of_object? h', Prod.mk.injEq]
  constructor
  · intro heq
    exact ⟨congrArg (·.access) heq.symm, congrArg (·.obsolete) heq.symm⟩
  · rintro ⟨haccess, hobsolete⟩
    rw [haccess, hobsolete] at hfields
    exact hfields

/-! ## Two files -/

/-- Settings that model procedures of one category. -/
def onlyCategory (c : Category) : Settings := { procedureTypes := [.ofCategory c] }

/-- A file with a property above its procedures and one between them. -/
def propertyAboveAndBetween : SourceFile where
  path := ⟨"Tools.al"⟩
  lines := ["codeunit 1 Tools", "\x7b", "Access = Internal;", "procedure Open()",
    "Access = Local;", "[Test]", "procedure Check()", "\x7d"]

theorem object?_eq_except_procedures_normal :
    ∃ o o', propertyAboveAndBetween.object? {} = some o ∧
      propertyAboveAndBetween.object? (onlyCategory .normal) = some o' ∧
      o.procedures.map (·.line) = [3, 6] ∧ o'.procedures.map (·.line) = [3] ∧
      o.access = .withinApp ∧ { o' with procedures := o.procedures } = o := by
  have hsome : ((propertyAboveAndBetween.object? {}).map fun o =>
      (o.procedures.map (·.line), o.access)) = some ([3, 6], .withinApp) := by decide +kernel
  have hsome' : ((propertyAboveAndBetween.object? (onlyCategory .normal)).map fun o =>
      o.procedures.map (·.line)) = some [3] := by decide +kernel
  obtain ⟨o, ho, hlines⟩ := Option.map_eq_some_iff.1 hsome
  obtain ⟨o', ho', hlines'⟩ := Option.map_eq_some_iff.1 hsome'
  obtain ⟨hlines, haccess⟩ := Prod.mk.injEq _ _ _ _ ▸ hlines
  refine ⟨o, o', ho, ho', hlines, hlines', haccess, ?_⟩
  refine (object?_eq_except_procedures_iff ho ho').2.2 ?_
  rw [SourceObject.firstLine?, SourceObject.firstLine?, ← List.head?_map, ← List.head?_map, hlines,
    hlines']
  rfl

/-- A file with a property below its only procedure. -/
def propertyBelow : SourceFile where
  path := ⟨"Tools.al"⟩
  lines := ["codeunit 1 Tools", "\x7b", "procedure Open()", "Access = Internal;", "\x7d"]

/-- Where the settings drop the procedure, the property below it counts. -/
theorem exists_object?_access_ne :
    ¬ ∀ (f : SourceFile) (s s' : Settings) (o o' : SourceObject), f.object? s = some o →
      f.object? s' = some o' → { o' with procedures := o.procedures } = o := by
  intro hall
  have hsome : ((propertyBelow.object? {}).map (·.access)) = some .everywhere := by decide +kernel
  have hsome' : ((propertyBelow.object? (onlyCategory .test)).map (·.access)) =
      some .withinApp := by decide +kernel
  obtain ⟨o, ho, haccess⟩ := Option.map_eq_some_iff.1 hsome
  obtain ⟨o', ho', haccess'⟩ := Option.map_eq_some_iff.1 hsome'
  have heq := congrArg (·.access) (hall propertyBelow _ _ o o' ho ho')
  rw [haccess] at heq
  rw [show o'.access = .everywhere from heq] at haccess'
  cases haccess'

end SourceFile

end DocAudit
