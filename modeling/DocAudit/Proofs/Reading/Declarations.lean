import DocAudit.Proofs.Reading.Pass

/-!
# Where declarations come from

Every declaration of a model is read from its own line of the file: the object from its header, each
procedure from the signature that opens on its line, and both with the documentation above them.

* `SourceObject.declarations`: the declarations of an object.
* `SourceObject.ReadFrom`: they are read from a file.
* `readFrom_of_object?`: those of the object of a file are.
* `Procedure.Repeats`: a procedure says what its signature, its header and its documentation say.
* `object?_repeats`: the object of a file and its procedures say what stands in the file.
-/

namespace DocAudit

/-- The object and its procedures, in the order of the file. -/
def SourceObject.declarations (o : SourceObject) : List Declaration :=
  .object o :: o.procedures.map .procedure

/-- The procedure is read from the signature that opens on its line. -/
def Procedure.ReadFrom (f : SourceFile) (p : Procedure) : Prop :=
  ∃ line header whole extra traits, f.line? p.line = some line ∧
    SourceFile.headerAt? line (f.linesFrom (p.line + 1)) = some (header, whole, extra) ∧
    p = f.procedure p.line (p.line + extra) whole header traits

theorem Procedure.ReadFrom.start_line {f : SourceFile} {p : Procedure} (h : p.ReadFrom f) :
    p.range.start.line = p.line := by
  obtain ⟨line, header, whole, extra, traits, -, -, heq⟩ := h
  rw [heq]
  rfl

/-- The object is read from its header, and its procedures from their signatures. -/
structure SourceObject.ReadFrom (f : SourceFile) (o : SourceObject) : Prop where
  header : ∃ line, f.line? o.line = some line ∧ ObjectHeader.read? line = some o.toObjectHeader
  file : o.file = f.path
  documentation : o.documentation = f.documentationAbove o.line
  procedures : ∀ p ∈ o.procedures, p.ReadFrom f

namespace SourceFile

variable {f : SourceFile} {s : Settings}

/-- Whatever object is open, its declarations are read from the file. -/
def Faithful (f : SourceFile) (r : Reading) : Prop := ∀ o, r.object = some o → o.ReadFrom f

theorem faithful_readProcedure {n extra : Nat} {line whole : Text} {header : ProcedureHeader}
    {r : Reading} (hr : Faithful f r) (hl : f.line? n = some line)
    (hh : headerAt? line (f.linesFrom (n + 1)) = some (header, whole, extra)) :
    Faithful f (f.readProcedure s n (n + extra) whole header r) := by
  intro o ho
  simp only [readProcedure] at ho
  split at ho
  · obtain ⟨o', ho', rfl⟩ := Option.map_eq_some_iff.1 ho
    have h := hr o' ho'
    refine ⟨h.header, h.file, h.documentation, ?_⟩
    intro p hp
    rcases List.mem_append.1 hp with hp | hp
    · exact h.procedures p hp
    · rw [List.mem_singleton.1 hp]
      exact ⟨line, header, whole, extra, Traits.of r.attributes, hl, hh, rfl⟩
  · exact hr o ho

theorem faithful_emptyObject {n : Nat} {line : Text} {r : Reading} {header : ObjectHeader}
    (hr : r.object = some (f.emptyObject n header)) (hl : f.line? n = some line)
    (hh : ObjectHeader.read? line = some header) : Faithful f r := by
  intro o ho
  rw [hr] at ho
  cases ho
  exact ⟨⟨line, hl, hh⟩, rfl, rfl, fun p hp => absurd hp List.not_mem_nil⟩

/-- A line keeps the declarations faithful to the file. -/
theorem step_faithful {n : Nat} {line : Text} {r : Reading} (hr : Faithful f r)
    (hl : f.line? n = some line) :
    match f.step s n line (f.linesFrom (n + 1)) r with
    | .next r' _ => Faithful f r'
    | .done r' => Faithful f r'
    | .fragment => True := by
  have heffect := effect_step (f := f) (s := s) n line (f.linesFrom (n + 1)) r
  generalize f.step s n line (f.linesFrom (n + 1)) r = effect at heffect
  cases heffect with
  | comment => exact hr
  | skip => exact hr
  | attributeRead => exact hr
  | signatureRead _ _ hh => exact faithful_readProcedure hr hl hh
  | plain _ _ _ hp =>
    cases hp with
    | body ho => exact fun o' ho' => hr o' ho'
    | close ho => exact fun o' ho' => hr o' ho'
    | header _ _ hh => exact faithful_emptyObject rfl hl hh
    | outside => exact hr
    | fragment => trivial

theorem Reaches.faithful {n : Nat} {r : Reading} (h : Reaches f s n r) : Faithful f r := by
  induction h with
  | start => exact fun o ho => by cases ho
  | @next n extra line r r' _ hl h ih =>
    have hstep := step_faithful (s := s) ih hl
    rw [h] at hstep
    exact hstep

/-- **Every declaration of a model is read from its line of the file.** -/
theorem readFrom_of_object? {o : SourceObject} (h : f.object? s = some o) : o.ReadFrom f := by
  obtain ⟨r, hends, hresult⟩ := exists_ends_of_object? h
  obtain ⟨o', ho', rfl⟩ := Option.map_eq_some_iff.1 hresult
  have ho : o'.ReadFrom f := by
    cases hends with
    | exhausted hr _ => exact hr.faithful o' ho'
    | closed hr hl h =>
      have hstep := step_faithful (s := s) hr.faithful hl
      rw [h] at hstep
      exact hstep o' ho'
  exact ⟨ho.header, ho.file, ho.documentation, ho.procedures⟩

end SourceFile

/-! ## What a procedure repeats of the file -/

/-- The documentation of no declaration has no tags, as that of an empty block. -/
theorem Documentation.tags_eq_read (d : Documentation) :
    Documentation.tags d = Tags.read (Documentation.raw d) := by
  cases d with
  | none => decide +kernel
  | some raw => rfl

/-- A tag is the first one for a name, in any case. -/
def Tags.IsFirstFor (tags : Tags) (name : Text) (t : ParameterTag) : Prop :=
  ∃ before after, tags.parameters = before ++ t :: after ∧ sameWord t.name name = true ∧
    ∀ earlier ∈ before, sameWord earlier.name name = false

theorem Tags.parameter?_eq_some_iff {tags : Tags} {name : Text} {t : ParameterTag} :
    tags.parameter? name = some t ↔ tags.IsFirstFor name t := by
  rw [parameter?, List.find?_eq_some_iff_append, IsFirstFor]
  constructor
  · rintro ⟨hname, before, after, hsplit, hbefore⟩
    exact ⟨before, after, hsplit, hname, fun u hu => by simpa using hbefore u hu⟩
  · rintro ⟨before, after, hsplit, hname, hbefore⟩
    exact ⟨hname, before, after, hsplit, fun u hu => by simpa using hbefore u hu⟩

theorem Tags.parameter?_eq_none_iff {tags : Tags} {name : Text} :
    tags.parameter? name = none ↔ ∀ t ∈ tags.parameters, sameWord t.name name = false := by
  simp only [parameter?, List.find?_eq_none, Bool.not_eq_true]

/-- The documentation of a parameter is the markup of the first tag for its name; without such a
tag there is none. -/
structure Parameter.DocumentedBy (tags : Tags) (q : Parameter) : Prop where
  none_iff : q.documentation = none ↔ ∀ t ∈ tags.parameters, sameWord t.name q.name = false
  some_iff : ∀ markup, q.documentation = some markup ↔
    ∃ t, tags.IsFirstFor q.name t ∧ t.markup = markup

theorem ParameterClause.documentedBy_document (tags : Tags) (c : ParameterClause) :
    (c.document tags).DocumentedBy tags where
  none_iff := by
    rw [← Tags.parameter?_eq_none_iff, document, Option.map_eq_none_iff]
  some_iff := fun markup => by
    simp only [← Tags.parameter?_eq_some_iff, document, Option.map_eq_some_iff]

/-- A procedure says what its header says, which is that of the signature on its line, and it is
documented by the block above that line. -/
structure Procedure.Repeats (f : SourceFile) (p : Procedure) (header : ProcedureHeader) : Prop where
  signature : f.signatureAt p.line = (p.declaration, p.range.stop.line)
  read : ProcedureHeader.read? p.declaration = some header
  name : p.name = header.name
  kind : p.kind = header.kind
  access : p.access = header.access.getD .everywhere
  parameters : p.parameters.map (·.toParameterClause) = header.parameters
  returns : p.returns.map (·.toReturnClause) = header.returns
  documentation : p.documentation = f.documentationAbove p.line
  documented : ∀ q ∈ p.parameters, q.DocumentedBy (Tags.read (Documentation.raw p.documentation))

namespace SourceFile

variable {f : SourceFile} {s : Settings}

theorem signatureAt_of_headerAt? {n extra : Nat} {line whole : Text} {header : ProcedureHeader}
    (hl : f.line? n = some line)
    (hh : headerAt? line (f.linesFrom (n + 1)) = some (header, whole, extra)) :
    f.signatureAt n = (whole, n + extra) ∧ ProcedureHeader.read? whole = some header := by
  obtain ⟨-, hsignature, hread⟩ := headerAt?_eq_some_iff.1 hh
  rw [signatureAt, linesFrom_eq_cons hl, hsignature]
  exact ⟨rfl, hread⟩

/-- A procedure that is read from its signature says what stands there. -/
theorem exists_repeats_of_readFrom {p : Procedure} (h : p.ReadFrom f) :
    ∃ header, p.Repeats f header := by
  obtain ⟨line, header, whole, extra, traits, hl, hh, heq⟩ := h
  obtain ⟨hsignature, hread⟩ := signatureAt_of_headerAt? hl hh
  generalize p.line = n at *
  subst heq
  have hparameters : ∀ tags : Tags, (header.parameters.map (ParameterClause.document tags)).map
      (·.toParameterClause) = header.parameters := by
    intro tags
    rw [List.map_map]
    exact List.map_id _
  have hreturns : ∀ tags : Tags, (header.returns.map (ReturnClause.document tags)).map
      (·.toReturnClause) = header.returns := by
    intro tags
    rw [Option.map_map]
    exact Option.map_id'
  refine ⟨header, hsignature, hread, rfl, rfl, rfl, hparameters _, hreturns _, rfl, ?_⟩
  intro q hq
  obtain ⟨c, -, rfl⟩ := List.mem_map.1 hq
  rw [← Documentation.tags_eq_read]
  exact c.documentedBy_document _

/-- **The model is faithful to the text.** The object of a file is that of the header on its line,
and every procedure says what the signature on its line and the documentation above it say. -/
theorem object?_repeats {o : SourceObject} (h : f.object? s = some o) :
    (∃ line, f.line? o.line = some line ∧ ObjectHeader.read? line = some o.toObjectHeader) ∧
      ∀ p ∈ o.procedures, ∃ header, p.Repeats f header := by
  have hread := readFrom_of_object? h
  exact ⟨hread.header, fun p hp => exists_repeats_of_readFrom (hread.procedures p hp)⟩

/-- A file with a signature of two lines, one of whose parameters is documented twice. -/
def twiceDocumented : SourceFile where
  path := ⟨"Tools.al"⟩
  lines := ["codeunit 1 Tools", "\x7b", "/// <param name=\"ITEM\">First.</param>",
    "/// <param name=\"Item\">Second.</param>", "local procedure Pack(var Item: Record Item;",
    "  Count: Integer): Boolean", "\x7d"]

theorem object?_repeats_twiceDocumented :
    ∃ o, twiceDocumented.object? {} = some o ∧
      o.procedures.map (fun p => (p.line, p.parameters.map (·.documentation))) =
        [(4, [some ("<param name=\"ITEM\">First.</param>" : Text), none])] ∧
      ∀ p ∈ o.procedures, ∃ header, p.Repeats twiceDocumented header := by
  have hsome : ((twiceDocumented.object? {}).map fun o =>
      o.procedures.map fun p => (p.line, p.parameters.map (·.documentation))) =
        some [(4, [some ("<param name=\"ITEM\">First.</param>" : Text), none])] := by
    decide +kernel
  obtain ⟨o, ho, hparameters⟩ := Option.map_eq_some_iff.1 hsome
  exact ⟨o, ho, hparameters, (object?_repeats ho).2⟩

end SourceFile

end DocAudit
