import DocAudit.Proofs.Source.LetterCase
import Mathlib.Data.List.Forall2

/-!
# Headers and the case of letters

A header may be written in any case. Two lines that differ in the case of their ASCII letters are
read alike: both hold a header or neither does, with the same keywords, flags and numbers, and with
names and types that differ in case where the lines do.

    LOCAL Procedure "Post (all)"(Var Line: RECORD Item Temporary): boolean
    local procedure "POST (ALL)"(var LINE: record ITEM temporary): Boolean

* `ParameterClause.readAll_lower`, `ReturnClause.read?_lower`, `ProcedureHeader.read?_lower`,
  `ObjectHeader.read?_lower`: from a line in lower case the same is read in lower case.
* `Recased`: texts that differ in case at most.
* `readAlike_of_recased`: recased lines are read alike.
-/

namespace DocAudit

/-! ## Parameters -/

/-- The clause with its texts in lower case. -/
def ParameterClause.lowered (p : ParameterClause) : ParameterClause where
  name := lower p.name
  dataType := lower p.dataType
  subtype := p.subtype.map lower
  byReference := p.byReference
  temporary := p.temporary

theorem afterVar?_lower (name : Text) : afterVar? (lower name) = (afterVar? name).map lower := by
  rw [afterVar?, afterVar?, readFolded_lower]
  cases readFolded "var" name with
  | none => rfl
  | some found =>
    simp only [Option.map_some, Option.bind_eq_bind, Option.bind_some, Prod.map_snd, blankRun_lower]
    cases blankRun found.2 with
    | none => rfl
    | some rest =>
      simp only [Option.map_some, Option.bind_some, isEmpty_lower, @any_eq_lower '\n' rfl]
      split <;> rfl

theorem beforeTemporary?_lower (dataType : Text) :
    beforeTemporary? (lower dataType) = (beforeTemporary? dataType).map lower := by
  rw [beforeTemporary?, beforeTemporary?]
  simp only [length_lower, take_lower, drop_lower, readFolded_lower, getLast?_lower, trim_lower,
    trimRight_lower, @all_ne_lower '\n' rfl, any_isBlank_map_toLower]
  cases readFolded "temporary" (dataType.drop
      (dataType.take (dataType.length - ("temporary" : Text).length)).length) with
  | none => rfl
  | some found =>
    simp only [Option.map_some, Option.bind_eq_bind, Option.bind_some, Prod.map, isEmpty_lower]
    split <;> rfl

theorem subtypeOf?_lower (dataType : Text) :
    subtypeOf? (lower dataType) = (subtypeOf? dataType).map lower := by
  rw [subtypeOf?, subtypeOf?, splitFirst_lower isBlank_toLower]
  cases splitFirst isBlank dataType with
  | none => rfl
  | some found =>
    simp only [Option.map_some, Prod.map, unquote_lower, lower_eq_nil_iff]
    split <;> rfl

theorem ParameterClause.of_lower (name dataType : Text) :
    ParameterClause.of (lower name) (lower dataType) =
      (ParameterClause.of name dataType).lowered := by
  rw [ParameterClause.of, ParameterClause.of, lowered, afterVar?_lower, beforeTemporary?_lower]
  simp only [Option.isSome_map, Option.getD_map, unquote_lower, subtypeOf?_lower]

theorem ParameterClause.read?_lower (piece : Text) :
    ParameterClause.read? (lower piece) = (ParameterClause.read? piece).map lowered := by
  rw [ParameterClause.read?, ParameterClause.read?, trim_lower, splitTopLevel_lower rfl]
  cases splitTopLevel ':' (trim piece) with
  | nil => rfl
  | cons name others =>
    simp only [List.map_cons, length_lower, drop_lower, trim_lower, of_lower, Option.map_some]

theorem ParameterClause.readAll_lower (list : Text) :
    ParameterClause.readAll (lower list) = (ParameterClause.readAll list).map lowered := by
  rw [ParameterClause.readAll, ParameterClause.readAll, splitTopLevel_lower rfl,
    List.filterMap_map, List.map_filterMap]
  congr 1
  funext piece
  exact read?_lower piece

/-! ## Return clauses -/

/-- The clause with its texts in lower case. -/
def ReturnClause.lowered (r : ReturnClause) : ReturnClause where
  name := r.name.map lower
  dataType := lower r.dataType

theorem returnType?_lower (t : Text) : returnType? (lower t) = (returnType? t).map lower := by
  cases t with
  | nil => rfl
  | cons c rest =>
    rw [lower_cons, returnType?, returnType?, trimLeft_lower, trim_lower,
      @all_ne_lower '\n' rfl]
    simp only [toLower_eq_iff (d := ':') rfl, ne_eq, lower_eq_nil_iff]
    split <;> rfl

theorem ReturnClause.read?_lower (t : Text) :
    ReturnClause.read? (lower t) = (ReturnClause.read? t).map lowered := by
  rw [ReturnClause.read?, ReturnClause.read?, trim_lower, name?_lower]
  cases name? (trim t) with
  | none =>
    simp only [Option.map_none, returnType?_lower, Option.map_map]
    rfl
  | some found =>
    simp only [Option.map_some, Prod.map, trimLeft_lower, returnType?_lower, Option.map_map,
      unquote_lower]
    rfl

theorem dropSemicolon_lower (t : Text) : dropSemicolon (lower t) = lower (dropSemicolon t) := by
  have hlast : (lower (trim t)).getLast? = some ';' ↔ (trim t).getLast? = some ';' := by
    rw [getLast?_lower, map_toLower_eq_some_iff rfl]
  rw [dropSemicolon, dropSemicolon, trim_lower]
  simp only [hlast]
  split
  · rw [lower, ← List.map_dropLast, ← lower, trim_lower]
  · rfl

theorem returnText?_lower (after : Text) :
    returnText? (lower after) = (returnText? after).map lower := by
  rw [returnText?, returnText?, dropSemicolon_lower]
  simp only [ReturnClause.read?_lower, Option.isSome_map]
  split <;> rfl

/-! ## Procedure headers -/

/-- The header with its texts in lower case. -/
def ProcedureHeader.lowered (h : ProcedureHeader) : ProcedureHeader where
  access := h.access
  kind := h.kind
  name := lower h.name
  parameterText := lower h.parameterText
  returnText := h.returnText.map lower

/-- The head with its name in lower case. -/
def ProcedureHead.lowered (h : ProcedureHead) : ProcedureHead where
  access := h.access
  kind := h.kind
  writtenName := lower h.writtenName

theorem readModifier_lower (t : Text) :
    readModifier (lower t) = Prod.map id lower (readModifier t) := by
  rw [readModifier, readModifier, keyword?_lower]
  cases keyword? modifierWords t <;> rfl

theorem ProcedureHead.read?_lower (t : Text) :
    ProcedureHead.read? (lower t) = (ProcedureHead.read? t).map (Prod.map lowered lower) := by
  rw [ProcedureHead.read?, ProcedureHead.read?, trimLeft_lower, readModifier_lower]
  obtain ⟨access, rest⟩ := readModifier (trimLeft t)
  simp only [Prod.map, keyword?_lower]
  cases keyword? (procedureWords.map (·.1)) rest with
  | none => rfl
  | some found =>
    obtain ⟨word, written, afterKind⟩ := found
    simp only [Option.map_some, Prod.map, id, Option.bind_eq_bind, Option.bind_some, name?_lower]
    cases procedureWords.lookup word with
    | none => rfl
    | some kind =>
      simp only [Option.bind_some]
      cases name? afterKind with
      | none => rfl
      | some named =>
        simp only [Option.map_some, Option.bind_some, Prod.map, trimLeft_lower]
        cases trimLeft named.2 with
        | nil => rfl
        | cons c rest =>
          simp only [lower_cons, toLower_eq_iff (d := '(') rfl]
          split <;> rfl

theorem startsProcedure_lower (line : Text) :
    startsProcedure (lower line) = startsProcedure line := by
  rw [startsProcedure, stripComment_lower, ProcedureHead.read?_lower, Option.isSome_map,
    startsProcedure]

theorem parametersClosed_lower (t : Text) : parametersClosed (lower t) = parametersClosed t := by
  rw [parametersClosed, ProcedureHead.read?_lower, parametersClosed]
  cases ProcedureHead.read? t with
  | none => rfl
  | some found => simp only [Option.map_some, Prod.map, closeParenthesis_lower, Option.isSome_map]

theorem ProcedureHeader.read?_lower (line : Text) :
    ProcedureHeader.read? (lower line) = (ProcedureHeader.read? line).map lowered := by
  rw [ProcedureHeader.read?, ProcedureHeader.read?, stripComment_lower, ProcedureHead.read?_lower]
  cases ProcedureHead.read? (stripComment line) with
  | none => rfl
  | some found =>
    simp only [Option.map_some, Option.bind_eq_bind, Option.bind_some, Prod.map,
      closeParenthesis_lower]
    cases closeParenthesis .outside 0 found.2 with
    | none => rfl
    | some parts =>
      simp only [Option.map_some, Option.bind_some, Prod.map, trim_lower, returnText?_lower,
        ProcedureHead.lowered, unquote_lower]
      rfl

/-! ## Object headers -/

/-- The relation with its target in lower case. -/
def Relation.lowered (r : Relation) : Relation where
  kind := r.kind
  target := lower r.target

/-- The header with its texts in lower case. -/
def ObjectHeader.lowered (h : ObjectHeader) : ObjectHeader where
  keyword := lower h.keyword
  number := h.number
  name := lower h.name
  relation := h.relation.map Relation.lowered

theorem endsHeader_lower (t : Text) : endsHeader (lower t) = endsHeader t := by
  rw [endsHeader, endsHeader, trimLeft_lower]
  cases trimLeft t with
  | nil => rfl
  | cons c rest =>
    rw [lower_cons]
    simp only [toLower_eq_iff (d := '{') rfl, @all_ne_lower '\n' rfl]

theorem targetText?_lower (t : Text) : targetText? (lower t) = (targetText? t).map lower := by
  induction t with
  | nil => rfl
  | cons c rest ih =>
    rw [lower_cons, targetText?, targetText?, endsHeader_lower, ih]
    simp only [toLower_eq_iff (d := '\n') rfl]
    split
    · rfl
    · split
      · rfl
      · rw [Option.map_map, Option.map_map]
        rfl

theorem target?_lower (t : Text) : target? (lower t) = (target? t).map lower := by
  rw [target?, target?, trimLeft_lower, drop_lower, any_ne_lower rfl]
  cases trimLeft t with
  | nil =>
    rw [lower_nil]
    simp only
    split <;> rfl
  | cons c rest =>
    rw [lower_cons]
    simp only
    rw [← lower_cons, targetText?_lower, Option.map_map, Option.map_map]
    congr 1
    funext target
    exact trim_lower target

theorem relation?_lower (t : Text) : relation? (lower t) = (relation? t).map Relation.lowered := by
  rw [relation?, relation?, List.map_findSome?]
  congr 1
  funext p
  simp only [Function.comp_apply, readFolded_lower]
  cases readFolded p.1 t with
  | none => rfl
  | some found =>
    simp only [Option.map_some, Prod.map, head?_lower, any_isBlank_map_toLower, target?_lower,
      lower_lower]
    split
    · rw [Option.map_map, Option.map_map]
      rfl
    · rfl

theorem headerTail?_lower (t : Text) :
    headerTail? (lower t) = (headerTail? t).map (Option.map Relation.lowered) := by
  rw [headerTail?, headerTail?, endsHeader_lower, blankRun_lower]
  split
  · rfl
  · cases blankRun t with
    | none => rfl
    | some rest =>
      simp only [Option.map_some, relation?_lower, Option.map_map]
      rfl

/-- A header from its keyword, its number and a text that starts with its name. -/
def namedHeader? (keyword : Text) (number : Option Nat) (t : Text) : Option ObjectHeader := do
  let (name, rest) ← name? t
  let relation ← headerTail? rest
  return { keyword, number, name := unquote name, relation }

theorem headerBody?_eq (keyword t : Text) :
    headerBody? keyword t =
      match number? t with
      | some (digits, rest) => do
        let header ← namedHeader? keyword (some (digitsValue digits)) (← blankRun rest)
        if digitsValue digits ≤ maxObjectNumber then some header else none
      | none => namedHeader? keyword none t := rfl

theorem namedHeader?_lower (keyword : Text) (number : Option Nat) (t : Text) :
    namedHeader? (lower keyword) number (lower t) =
      (namedHeader? keyword number t).map ObjectHeader.lowered := by
  rw [namedHeader?, namedHeader?, name?_lower]
  cases name? t with
  | none => rfl
  | some found =>
    simp only [Option.map_some, Option.bind_eq_bind, Option.bind_some, Prod.map, headerTail?_lower,
      unquote_lower]
    cases headerTail? found.2 <;> rfl

theorem headerBody?_lower (keyword t : Text) :
    headerBody? (lower keyword) (lower t) = (headerBody? keyword t).map ObjectHeader.lowered := by
  rw [headerBody?_eq, headerBody?_eq, number?_lower]
  cases number? t with
  | none => exact namedHeader?_lower keyword none t
  | some found =>
    simp only [Option.map_some, Prod.map, id, blankRun_lower]
    cases blankRun found.2 with
    | none => rfl
    | some rest =>
      simp only [Option.map_some, Option.bind_eq_bind, Option.bind_some, namedHeader?_lower]
      cases namedHeader? keyword (some (digitsValue found.1)) rest with
      | none => rfl
      | some header =>
        simp only [Option.map_some, Option.bind_some]
        split <;> rfl

theorem isProcedureWord_lower (word : Text) :
    isProcedureWord (lower word) = isProcedureWord word := by
  simp only [isProcedureWord, sameWord, lower_lower]

theorem ObjectHeader.read?_lower (line : Text) :
    ObjectHeader.read? (lower line) = (ObjectHeader.read? line).map lowered := by
  rw [ObjectHeader.read?, ObjectHeader.read?, stripComment_lower, trimLeft_lower, word?_lower]
  cases word? (trimLeft (stripComment line)) with
  | none => rfl
  | some found =>
    simp only [Option.map_some, Option.bind_eq_bind, Option.bind_some, Prod.map, blankRun_lower]
    cases blankRun found.2 with
    | none => rfl
    | some rest =>
      simp only [Option.map_some, Option.bind_some, headerBody?_lower, isProcedureWord_lower]
      cases headerBody? found.1 rest with
      | none => rfl
      | some header =>
        simp only [Option.map_some, Option.bind_some]
        split <;> rfl

theorem Relation.targets_lowered (r : Relation) : r.lowered.targets = r.targets.map lower := by
  have hunquote : unquote ∘ lower = lower ∘ unquote := funext unquote_lower
  have hempty : (fun t : Text => !t.isEmpty) ∘ lower = fun t => !t.isEmpty :=
    funext fun t => congrArg not (isEmpty_lower t)
  rw [targets, targets, lowered, splitTopLevel_lower rfl, List.map_map, hunquote, ← List.map_map,
    List.filter_map, hempty]

theorem ObjectHeader.kind_lowered (h : ObjectHeader) : h.lowered.kind = h.kind := by
  rw [kind, lowered, ObjectKind.ofWord, lower_lower, kind, ObjectKind.ofWord]

/-! ## Lines -/

theorem isBlockBoundary_lower (line : Text) :
    isBlockBoundary (lower line) = isBlockBoundary line := by
  rw [isBlockBoundary, codeOf_lower, lower_lower, isBlockBoundary]

/-! ## Recased lines -/

/-- Two texts that differ in the case of ASCII letters at most. -/
def Recased (s t : Text) : Prop := lower s = lower t

/-- Two parameters that differ in case at most. -/
structure ParameterClause.SameButForCase (p p' : ParameterClause) : Prop where
  name : Recased p.name p'.name
  dataType : Recased p.dataType p'.dataType
  subtype : Option.Rel Recased p.subtype p'.subtype
  byReference : p.byReference = p'.byReference
  temporary : p.temporary = p'.temporary

/-- Two return clauses that differ in case at most. -/
structure ReturnClause.SameButForCase (r r' : ReturnClause) : Prop where
  name : Option.Rel Recased r.name r'.name
  dataType : Recased r.dataType r'.dataType

/-- Two procedure headers that differ in case at most. -/
structure ProcedureHeader.SameButForCase (h h' : ProcedureHeader) : Prop where
  access : h.access = h'.access
  kind : h.kind = h'.kind
  name : Recased h.name h'.name
  parameterText : Recased h.parameterText h'.parameterText
  parameters : List.Forall₂ ParameterClause.SameButForCase h.parameters h'.parameters
  returnText : Option.Rel Recased h.returnText h'.returnText
  returns : Option.Rel ReturnClause.SameButForCase h.returns h'.returns

/-- Two relations that differ in case at most. -/
structure Relation.SameButForCase (r r' : Relation) : Prop where
  kind : r.kind = r'.kind
  target : Recased r.target r'.target
  targets : List.Forall₂ Recased r.targets r'.targets

/-- Two object headers that differ in case at most. -/
structure ObjectHeader.SameButForCase (h h' : ObjectHeader) : Prop where
  keyword : Recased h.keyword h'.keyword
  kind : h.kind = h'.kind
  number : h.number = h'.number
  name : Recased h.name h'.name
  relation : Option.Rel Relation.SameButForCase h.relation h'.relation

/-- Every reader of headers says the same of two lines, up to case. -/
structure ReadAlike (s t : Text) : Prop where
  procedureHeader : Option.Rel ProcedureHeader.SameButForCase
    (ProcedureHeader.read? s) (ProcedureHeader.read? t)
  objectHeader : Option.Rel ObjectHeader.SameButForCase
    (ObjectHeader.read? s) (ObjectHeader.read? t)
  parameters : List.Forall₂ ParameterClause.SameButForCase
    (ParameterClause.readAll s) (ParameterClause.readAll t)
  boundary : isBlockBoundary s = isBlockBoundary t
  starts : startsProcedure s = startsProcedure t
  closed : parametersClosed s = parametersClosed t

section Lowered

variable {α β : Type} {f : α → β} {R : α → α → Prop}

theorem optionRel_of_map_eq (hR : ∀ a a', f a = f a' → R a a') {o o' : Option α}
    (h : o.map f = o'.map f) : Option.Rel R o o' := by
  cases o with
  | none =>
    cases o' with
    | none => exact .none
    | some a' => cases h
  | some a =>
    cases o' with
    | none => cases h
    | some a' => exact .some (hR a a' (Option.some.inj h))

theorem forall₂_of_map_eq (hR : ∀ a a', f a = f a' → R a a') {l l' : List α}
    (h : l.map f = l'.map f) : List.Forall₂ R l l' := by
  have heq : List.Forall₂ (· = ·) (l.map f) (l'.map f) := by
    rw [h, List.forall₂_eq_eq_eq]
  rw [List.forall₂_map_left_iff, List.forall₂_map_right_iff] at heq
  exact heq.imp hR

end Lowered

theorem ParameterClause.sameButForCase {p p' : ParameterClause} (h : p.lowered = p'.lowered) :
    p.SameButForCase p' := by
  simp only [lowered, mk.injEq] at h
  obtain ⟨hname, htype, hsubtype, hreference, htemporary⟩ := h
  exact ⟨hname, htype, optionRel_of_map_eq (fun _ _ => id) hsubtype, hreference, htemporary⟩

theorem ReturnClause.sameButForCase {r r' : ReturnClause} (h : r.lowered = r'.lowered) :
    r.SameButForCase r' := by
  simp only [lowered, mk.injEq] at h
  exact ⟨optionRel_of_map_eq (fun _ _ => id) h.1, h.2⟩

theorem ProcedureHeader.parameters_lowered (h : ProcedureHeader) :
    h.lowered.parameters = h.parameters.map ParameterClause.lowered :=
  ParameterClause.readAll_lower h.parameterText

theorem ProcedureHeader.returns_lowered (h : ProcedureHeader) :
    h.lowered.returns = h.returns.map ReturnClause.lowered := by
  rw [returns, returns, lowered]
  cases h.returnText with
  | none => rfl
  | some clause => exact ReturnClause.read?_lower clause

theorem ProcedureHeader.sameButForCase {h h' : ProcedureHeader} (heq : h.lowered = h'.lowered) :
    h.SameButForCase h' := by
  -- Parameters and return clause are read from the texts of the headers, so they agree as these do.
  have hparameters := congrArg parameters heq
  have hreturns := congrArg returns heq
  rw [parameters_lowered, parameters_lowered] at hparameters
  rw [returns_lowered, returns_lowered] at hreturns
  simp only [lowered, mk.injEq] at heq
  obtain ⟨haccess, hkind, hname, htext, hreturnText⟩ := heq
  exact {
    access := haccess
    kind := hkind
    name := hname
    parameterText := htext
    parameters := forall₂_of_map_eq (fun _ _ => ParameterClause.sameButForCase) hparameters
    returnText := optionRel_of_map_eq (fun _ _ => id) hreturnText
    returns := optionRel_of_map_eq (fun _ _ => ReturnClause.sameButForCase) hreturns }

theorem Relation.sameButForCase {r r' : Relation} (h : r.lowered = r'.lowered) :
    r.SameButForCase r' := by
  have htargets := congrArg targets h
  rw [targets_lowered, targets_lowered] at htargets
  simp only [lowered, mk.injEq] at h
  exact ⟨h.1, h.2, forall₂_of_map_eq (fun _ _ => id) htargets⟩

theorem ObjectHeader.sameButForCase {h h' : ObjectHeader} (heq : h.lowered = h'.lowered) :
    h.SameButForCase h' := by
  have hkind := congrArg kind heq
  rw [kind_lowered, kind_lowered] at hkind
  simp only [lowered, mk.injEq] at heq
  obtain ⟨hkeyword, hnumber, hname, hrelation⟩ := heq
  exact ⟨hkeyword, hkind, hnumber, hname,
    optionRel_of_map_eq (fun _ _ => Relation.sameButForCase) hrelation⟩

/-- **Recased lines are read alike.** -/
theorem readAlike_of_recased {s t : Text} (h : Recased s t) : ReadAlike s t where
  procedureHeader := by
    refine optionRel_of_map_eq (fun _ _ => ProcedureHeader.sameButForCase) ?_
    rw [← ProcedureHeader.read?_lower, ← ProcedureHeader.read?_lower, h]
  objectHeader := by
    refine optionRel_of_map_eq (fun _ _ => ObjectHeader.sameButForCase) ?_
    rw [← ObjectHeader.read?_lower, ← ObjectHeader.read?_lower, h]
  parameters := by
    refine forall₂_of_map_eq (fun _ _ => ParameterClause.sameButForCase) ?_
    rw [← ParameterClause.readAll_lower, ← ParameterClause.readAll_lower, h]
  boundary := by rw [← isBlockBoundary_lower s, ← isBlockBoundary_lower t, h]
  starts := by rw [← startsProcedure_lower s, ← startsProcedure_lower t, h]
  closed := by rw [← parametersClosed_lower s, ← parametersClosed_lower t, h]

/-- A procedure header, and the same line in another case. -/
def calmProcedure : Text := "local procedure \"Do (It)\"(var Line: Item temporary) Ok: Code[9];"

def loudProcedure : Text := "LOCAL Procedure \"DO (iT)\"(VAR line: ITEM Temporary) ok: CODE[9];"

/-- An object header, and the same line in another case. -/
def calmObject : Text := "codeunit 50100 \"A, B\" implements ISales, \"I Log\" // Facade"

def loudObject : Text := "CodeUnit 50100 \"a, B\" Implements iSales, \"i log\" // facade"

theorem readAlike_of_recased_loud :
    Recased calmProcedure loudProcedure ∧ (ProcedureHeader.read? calmProcedure).isSome = true ∧
      ReadAlike calmProcedure loudProcedure ∧
      Recased calmObject loudObject ∧ (ObjectHeader.read? calmObject).isSome = true ∧
      ReadAlike calmObject loudObject := by
  have hprocedure : Recased calmProcedure loudProcedure := by
    unfold Recased
    decide +kernel
  have hobject : Recased calmObject loudObject := by
    unfold Recased
    decide +kernel
  exact ⟨hprocedure, by decide +kernel, readAlike_of_recased hprocedure,
    hobject, by decide +kernel, readAlike_of_recased hobject⟩

end DocAudit
