import DocAudit.Proofs.Finding.Elements
import DocAudit.Proofs.Skeleton.Complete
import DocAudit.Proofs.Skeleton.Content

/-!
# Parameters that their tags name

The tag that a skeleton has for a parameter holds its name, without the quotes of the source, as the
value of an attribute. When the tag is read, quotes and blanks around a name are taken off once
more, so that the tag names its parameter exactly if there are none left. Any other character of a
name does no harm; of the type it is asked that markup allows its characters.

* `IsBare`, `unquote_eq_self_iff`: names that stay as they are.
* `Tags.Describe`: tags that are the description of one parameter.
* `ProcedureHeader.describe_skeletonLines_iff`: when the tag of a skeleton is.
* `ProcedureHeader.names_read_skeletonLines`: the names in a whole skeleton.
-/

namespace DocAudit

open Markup

/-! ## Bare names -/

/-- A name without blanks at its ends and without quotes around it. -/
structure IsBare (n : Text) : Prop where
  trim_eq : trim n = n
  unquoted : ¬ (2 ≤ n.length ∧ n.head? = some '"' ∧ n.getLast? = some '"')

theorem length_collapsePairs_le (mark : Char) (t : Text) :
    (collapsePairs mark t).length ≤ t.length := by
  fun_induction collapsePairs mark t with
  | case1 a b rest h ih =>
    simp only [List.length_cons]
    omega
  | case2 a b rest h ih =>
    simp only [List.length_cons] at ih ⊢
    omega
  | case3 t => exact Nat.le_refl _

theorem quotedBody_eq_none_iff {n : Text} : quotedBody n = none ↔
    ¬ (2 ≤ n.length ∧ n.head? = some '"' ∧ n.getLast? = some '"') := by
  rw [quotedBody.eq_def]
  split
  · next rest =>
    cases rest with
    | nil => simp
    | cons c rest =>
      rw [List.getLast?_cons_cons]
      simp
  · next hhead =>
    refine iff_of_true rfl fun h => ?_
    obtain ⟨rest, rfl⟩ := List.head?_eq_some_iff.1 h.2.1
    exact hhead rest rfl

theorem length_of_quotedBody {n body : Text} (h : quotedBody n = some body) :
    body.length < n.length := by
  rw [quotedBody.eq_def] at h
  split at h
  · next rest =>
    split at h
    · cases h
      rw [List.length_dropLast, List.length_cons]
      omega
    · cases h
  · cases h

/-- **The names that stay as they are** when quotes are taken off are the bare ones. -/
theorem unquote_eq_self_iff (n : Text) : unquote n = n ↔ IsBare n := by
  constructor
  · intro h
    rw [unquote] at h
    cases hbody : quotedBody (trim n) with
    | some body =>
      rw [hbody] at h
      have hshorter := length_of_quotedBody hbody
      have hcollapsed := length_collapsePairs_le '"' body
      have htrim : (trim n).length ≤ n.length :=
        Nat.le_trans (length_trimRight_le _) (length_trimLeft_le n)
      have hlength : (collapsePairs '"' body).length = n.length := congrArg List.length h
      omega
    | none =>
      rw [hbody] at h
      have htrim : trim n = n := h
      rw [htrim] at hbody
      exact ⟨htrim, quotedBody_eq_none_iff.1 hbody⟩
  · intro h
    rw [unquote, h.trim_eq, quotedBody_eq_none_iff.2 h.unquoted]

/-! ## The tag of a parameter -/

theorem mem_escapeWith {image : Char → Option Text} {c : Char} {t : Text} (hc : c ∈ t)
    (hi : image c = none) : c ∈ escapeWith image t :=
  List.mem_flatMap.2 ⟨c, hc, by simp [hi]⟩

/-- No escaping replaces a character that markup does not allow. -/
theorem mem_placeholder {c : Char} {default : Text} (number : Nat) (hc : c ∈ default)
    (hallowed : isAllowed c = false) : c ∈ placeholder number default := by
  have hmarkup : markupImage? c = none := by
    refine markupImage?_eq_none_iff.2 ⟨?_, ?_, ?_, ?_⟩ <;>
      · rintro rfl
        cases hallowed
  have hplain : placeholderImage? c = none := by
    refine placeholderImage?_eq_none_iff.2 ⟨?_, ?_, ?_⟩ <;>
      · rintro rfl
        cases hallowed
  have hbody : c ∈ escapePlaceholder (escapeMarkup default) :=
    mem_escapeWith (mem_escapeWith hc hmarkup) hplain
  simp [placeholder, hbody]

namespace ParameterClause

variable {p : ParameterClause} (number : Nat)

/-- The parameter without its type. Its tag opens and closes in the same way. -/
def untyped (p : ParameterClause) : ParameterClause := { p with dataType := [] }

theorem isInline_untyped (hname : Inline p.name) : p.untyped.IsInline :=
  ⟨hname, fun _ hc => absurd hc List.not_mem_nil⟩

/-- The fragment that the tag of a parameter is, but for the text in it. -/
def tagFragment (number : Nat) (p : ParameterClause) (hname : Inline p.name) : Fragment :=
  parameterFragment number p.untyped (isInline_untyped hname)

theorem parameterLine_eq (hname : Inline p.name) :
    parameterLine number p = (tagFragment number p hname).opening ++
      (placeholder number (p.dataType ++ ".") ++ (tagFragment number p hname).closing) := by
  have hopening : (tagFragment number p hname).opening =
      "<param name=\"" ++ escapeMarkup p.name ++ "\">" := opening_parameterFragment _ _ _
  have hclosing : (tagFragment number p hname).closing = "</param>" := rfl
  rw [hopening, hclosing]
  exact List.append_assoc _ _ _

theorem escapeStray_parameterLine (hname : Inline p.name) :
    escapeStray (parameterLine number p) =
      { escapes := [], text := parameterLine number p } := by
  apply escapeStray_of_noStray
  rw [parameterLine_eq number hname, placeholder_eq,
    ← List.append_nil (tagFragment number p hname).closing]
  exact (tagFragment number p hname).noStray_escaped_append _ trivial

theorem elements?_parameterLine_eq_none (hname : Inline p.name) {c : Char} (hc : c ∈ p.dataType)
    (hallowed : isAllowed c = false) : elements? (parameterLine number p) = none := by
  have hmem : c ∈ placeholder number (p.dataType ++ ".") :=
    mem_placeholder number (List.mem_append_left _ hc) hallowed
  have hlt : '<' ∉ placeholder number (p.dataType ++ ".") := by
    rw [placeholder_eq]
    exact (not_mem_escapeMarkup _).1
  have hbody : Token.read? (placeholder number (p.dataType ++ ".") ++
      (tagFragment number p hname).closing) = none := read?_text_eq_none hlt hmem hallowed _
  show elementsAt? 0 none (parameterLine number p) = none
  rw [parameterLine_eq number hname, elementsAt?_opening]
  exact elementsAt?_of_read?_eq_none
    (List.append_ne_nil_of_left_ne_nil (List.ne_nil_of_mem hmem) _) hbody

theorem allowed_placeholderText {default : Text} (h : ∀ c ∈ default, isAllowed c = true) :
    ∀ c ∈ placeholderText number default, isAllowed c = true := by
  have hnumber : ∀ c ∈ decimal number, isAllowed c = true := fun c hc =>
    (inline_decimal number c hc).1
  have hdefault : ∀ c ∈ escapePlaceholder default, isAllowed c = true :=
    forall_mem_escapePlaceholder h (by decide)
  intro c hc
  simp only [placeholderText, List.mem_append] at hc
  rcases hc with (((hc | hc) | hc) | hc) | hc
  · revert c
    decide
  · exact hnumber c hc
  · revert c
    decide
  · exact hdefault c hc
  · revert c
    decide

theorem elements?_parameterLine (hname : Inline p.name)
    (htype : ∀ c ∈ p.dataType, isAllowed c = true) :
    ∃ e, elements? (parameterLine number p) = some [e] ∧ e.name = ("param" : Text) ∧
      e.attribute? "name" = some p.name ∧ e.start = 0 ∧ e.stop = (parameterLine number p).length ∧
      '$' ∈ e.text := by
  have hallowed : ∀ c ∈ p.dataType ++ ".", isAllowed c = true := fun c hc =>
    (List.mem_append.1 hc).elim (htype c) fun hc => (inline_period c hc).1
  have hread (rest : Text) :
      Token.read? (placeholder number (p.dataType ++ ".") ++ '<' :: rest) =
        some (.text (readLineEnds false
          ((placeholderText number (p.dataType ++ ".")).map writtenAs)), '<' :: rest) := by
    rw [placeholder_eq]
    refine read?_escaped (List.ne_nil_of_mem (mem_placeholderText _ _))
      (allowed_placeholderText number hallowed) ?_ rest
    rw [decodeText?, written?_escapeMarkup, Option.map_some]
  have helements := elementsAt?_written (tagFragment number p hname) hread 0 []
  rw [List.append_nil, elementsAt?_nil, Nat.zero_add, List.append_assoc,
    ← parameterLine_eq number hname] at helements
  exact ⟨_, helements, rfl, rfl, rfl, rfl, List.mem_cons_self⟩

/-- **The tag of a parameter is read as one tag**, which has the name without quotes. -/
theorem read_parameterLine (hname : Inline p.name)
    (htype : ∀ c ∈ p.dataType, isAllowed c = true) :
    ∃ text, text ≠ [] ∧ Tags.read (parameterLine number p) =
      { parameters := [⟨unquote p.name, parameterLine number p, text⟩] } := by
  obtain ⟨e, helements, hkind, hattribute, hstart, hstop, hmem⟩ :=
    elements?_parameterLine number hname htype
  have htag : Tags.tagOf (parameterLine number p) { escapes := [], text := parameterLine number p }
      e = ⟨parameterLine number p, tidy e.text⟩ := by
    have hslice : Tags.slice (parameterLine number p) 0 (parameterLine number p).length =
        parameterLine number p := by
      rw [Tags.slice, List.drop_zero, Nat.sub_zero, List.take_length]
    rw [Tags.tagOf, hstart, hstop]
    exact congrArg (Tag.mk · (tidy e.text)) hslice
  refine ⟨tidy e.text, tidy_ne_nil hmem (by decide), ?_⟩
  rw [Tags.read, escapeStray_parameterLine number hname]
  simp only [helements, List.foldl_cons, List.foldl_nil, htag, Tags.add, hkind, hattribute]
  rfl

end ParameterClause

/-! ## Tags that describe a parameter -/

/-- The tags are the description of a parameter and nothing else: the tag has its name and is found
under it, and no report on a procedure with this parameter says that it is missing or
unnecessary. -/
structure Tags.Describe (t : Tags) (name : Text) : Prop where
  named : ∃ tag, t.parameters = [tag] ∧ tag.name = name
  found : t.parameters.head? = t.parameter? name
  reported : ∀ q : Procedure, (∃ r ∈ q.parameters, r.name = name) →
    .noParameter name ∉ shortcomings q t ∧ .extraParameter name ∉ shortcomings q t

theorem Tags.describe_of_parameter (tag : ParameterTag) (htext : tag.text ≠ []) :
    ({ parameters := [tag] } : Tags).Describe tag.name := by
  have hfound : ({ parameters := [tag] } : Tags).parameter? tag.name = some tag := by
    simp [Tags.parameter?]
  refine ⟨⟨tag, rfl, rfl⟩, hfound.symm, ?_⟩
  rintro q ⟨r, hr, hname⟩
  rw [mem_shortcomings_iff rfl, mem_shortcomings_iff rfl]
  constructor
  · intro hmissing
    have hempty := (Procedure.mem_undescribed_iff.1 hmissing).2
    rw [hfound, Option.any_some, List.isEmpty_eq_false_iff.2 htext] at hempty
    cases hempty
  · intro hextra
    exact (Procedure.mem_undeclared_iff.1 hextra).2 ⟨r, hr, by rw [hname, sameWord_refl]⟩

/-- **When the tag of a skeleton names its parameter.** Let the name of a parameter be made of
characters that markup allows, without tabs and line ends. The tag that the skeleton has for it
describes the parameter exactly if no quotes and blanks can be taken off the name, and every
character of the type is allowed. -/
theorem ProcedureHeader.describe_skeletonLines_iff {h : ProcedureHeader} {i : Nat}
    {p : ParameterClause} (hp : h.parameters[i]? = some p)
    (hname : ∀ c ∈ p.name, isAllowed c = true ∧ c ≠ '\t' ∧ c ≠ '\n' ∧ c ≠ '\r') :
    ∃ l, h.skeletonLines[3 + i]? = some l ∧
      ((Tags.read l).Describe p.name ↔ IsBare p.name ∧ ∀ c ∈ p.dataType, isAllowed c = true) := by
  refine ⟨parameterLine (2 + i) p, getElem?_skeletonLines hp, ?_⟩
  have hinline : Inline p.name :=
    inline_of_allowed (fun c hc => ⟨(hname c hc).1, (hname c hc).2.1, (hname c hc).2.2.2⟩)
      fun hc => (hname _ hc).2.2.1 rfl
  constructor
  · rintro ⟨⟨tag, hparameters, htag⟩, -, -⟩
    have htype : ∀ c ∈ p.dataType, isAllowed c = true := by
      by_contra hno
      push Not at hno
      obtain ⟨c, hc, hallowed⟩ := hno
      have hnone := ParameterClause.elements?_parameterLine_eq_none (2 + i) hinline hc
        (Bool.eq_false_iff.2 hallowed)
      have hblock : Tags.elements? (parameterLine (2 + i) p) = none := by
        rw [Tags.elements?, ParameterClause.escapeStray_parameterLine (2 + i) hinline]
        exact hnone
      rw [Tags.read_eq_of_elements?_eq_none hblock] at hparameters
      cases hparameters
    obtain ⟨text, -, hread⟩ := ParameterClause.read_parameterLine (2 + i) hinline htype
    rw [hread] at hparameters
    cases hparameters
    exact ⟨(unquote_eq_self_iff p.name).1 htag, htype⟩
  · intro hboth
    obtain ⟨hbare, htype⟩ := hboth
    obtain ⟨text, hne, hread⟩ := ParameterClause.read_parameterLine (2 + i) hinline htype
    rw [(unquote_eq_self_iff p.name).2 hbare] at hread
    rw [hread]
    exact Tags.describe_of_parameter _ hne

/-- In a whole skeleton, too, the tags have the names without quotes. -/
theorem ProcedureHeader.names_read_skeletonLines (h : ProcedureHeader) (hi : h.IsInline) :
    (Tags.read (joinLines h.skeletonLines)).parameters.map (·.name) =
      h.parameters.map (unquote ·.name) := by
  rw [h.read_skeletonLines hi]
  exact names_parameterFragments 2 hi.parameters

/-- A header with parameters whose names hold markup, quotes and blanks. -/
def namedLine : Text :=
  "procedure Pack(\"Item & <No>\": Integer; \" B \": Integer; \"\"\"C\"\"\": Integer)"

/-- Markup in a name does no harm. -/
theorem describe_skeletonLines_namedLine :
    ∃ h p, ProcedureHeader.read? namedLine = some h ∧ h.parameters[0]? = some p ∧
      p.name = ("Item & <No>" : Text) ∧
      (∀ c ∈ p.name, isAllowed c = true ∧ c ≠ '\t' ∧ c ≠ '\n' ∧ c ≠ '\r') ∧
      ∃ l, h.skeletonLines[3]? = some l ∧ (Tags.read l).Describe p.name := by
  have hread : ((ProcedureHeader.read? namedLine).bind fun h => h.parameters[0]?.map fun p =>
      (p.name, p.dataType)) = some (("Item & <No>" : Text), ("Integer" : Text)) := by
    decide +kernel
  obtain ⟨h, hh, hp⟩ := Option.bind_eq_some_iff.1 hread
  obtain ⟨p, hp, heq⟩ := Option.map_eq_some_iff.1 hp
  obtain ⟨hname, htype⟩ := Prod.mk.inj heq
  have hallowed : ∀ c ∈ p.name, isAllowed c = true ∧ c ≠ '\t' ∧ c ≠ '\n' ∧ c ≠ '\r' := by
    rw [hname]
    decide +kernel
  obtain ⟨l, hl, hiff⟩ := ProcedureHeader.describe_skeletonLines_iff hp hallowed
  refine ⟨h, p, hh, hp, hname, hallowed, l, hl, hiff.2 ⟨⟨?_, ?_⟩, ?_⟩⟩
  · rw [hname]
    decide +kernel
  · rw [hname]
    decide +kernel
  · rw [htype]
    decide +kernel

example : ((ProcedureHeader.read? namedLine).map fun h =>
    (Tags.read (joinLines h.skeletonLines)).parameters.map (·.name)) =
      some [("Item & <No>" : Text), "B", "C"] := by
  decide +kernel

/-- Blanks at the ends of a name are lost, as quotes around it are: the tag for the second parameter
of this header names another. -/
theorem not_forall_describe_skeletonLines :
    ¬ ∀ (line : Text) (h : ProcedureHeader) (i : Nat) (p : ParameterClause),
      ProcedureHeader.read? line = some h → h.parameters[i]? = some p → p.name ≠ [] →
      (∀ c ∈ p.name, isAllowed c = true ∧ c ≠ '\t' ∧ c ≠ '\n' ∧ c ≠ '\r') →
      ∃ l, h.skeletonLines[3 + i]? = some l ∧ (Tags.read l).Describe p.name := by
  intro hall
  have hread : ((ProcedureHeader.read? namedLine).bind fun h => h.parameters[1]?.bind fun p =>
      h.skeletonLines[4]?.map fun l =>
        (p.name, (Tags.read l).parameters.map (·.name))) =
      some ((" B " : Text), [("B" : Text)]) := by
    decide +kernel
  obtain ⟨h, hh, hp⟩ := Option.bind_eq_some_iff.1 hread
  obtain ⟨p, hp, hl⟩ := Option.bind_eq_some_iff.1 hp
  obtain ⟨l, hl, heq⟩ := Option.map_eq_some_iff.1 hl
  obtain ⟨hname, hnames⟩ := Prod.mk.inj heq
  obtain ⟨l', hl', ⟨tag, hparameters, htag⟩, -, -⟩ := hall namedLine h 1 p hh hp
    (by rw [hname]; decide) (by rw [hname]; decide +kernel)
  obtain rfl : l = l' := Option.some.inj (hl.symm.trans hl')
  rw [hparameters, List.map_singleton, htag, hname] at hnames
  exact absurd hnames (by decide)

end DocAudit
