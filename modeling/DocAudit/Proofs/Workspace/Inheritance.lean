import DocAudit.Command
import DocAudit.Proofs.Documentation.Block
import DocAudit.Proofs.Documentation.Prose
import DocAudit.Proofs.Markup.Names
import DocAudit.Proofs.Reading.Declarations
import DocAudit.Proofs.Workspace.Scan

/-!
# Inherited documentation on request

A command that shows inherited documentation spares itself the scan of the workspace when the
documentation of the procedure does not mention `inheritdoc`. The mention is looked for in lower
case, while a tag is read in any case. So the short cut is right as long as the word, if it is there
in any case, is there in lower case; a tag that is only written with capitals is overlooked.

* `Tags.has_of_inherit`: a tag of inheritance is a mention of the word, in some case.
* `Command.Located.resolved?`: what a scan of the workspace finds.
* `Command.inherited?_agrees`: when the short cut finds the same, and what the commands print then.
-/

namespace DocAudit

open Markup

/-! ## Tags of inheritance -/

/-- The word that names the tag. -/
def inheritWord : Text := "inheritdoc"

namespace Tags

/-- **A tag of inheritance is a mention of its word**, in some case. -/
theorem has_of_inherit {raw : Text} (h : (read raw).inherit ≠ none) :
    Text.has inheritWord (lower raw) = true := by
  cases hread : Tags.elements? raw with
  | none =>
    rw [read_eq_of_elements?_eq_none hread] at h
    exact absurd rfl h
  | some elements =>
    rw [ne_eq, inherit_read_eq_none_iff hread] at h
    push Not at h
    obtain ⟨e, hmem, hkind⟩ := h
    have he : lower e.name = inheritWord := Element.isKind_iff.1 (Bool.of_not_eq_false hkind)
    have hname : lower e.name <:+: lower (escapeStray raw).text :=
      (isInfix_of_mem_elements? hread hmem).map Char.toLower
    rw [he] at hname
    exact has_iff_isInfix.2 ((referenced_escapeStray raw).lower.isInfix (by decide) (by decide) hname)

end Tags

/-- A text that mentions inheritance in any case does so in lower case. -/
def MentionsInLowerCase (raw : Text) : Prop :=
  Text.has inheritWord (lower raw) = true → Text.has inheritWord raw = true

instance (raw : Text) : Decidable (MentionsInLowerCase raw) :=
  inferInstanceAs (Decidable (_ → _))

/-! ## Commands -/

namespace Command

variable {d : Disk} {l : Located} {o : SourceObject} {p : Procedure}

/-- What a procedure inherits after a scan of the workspace. -/
def Located.resolved? (l : Located) (d : Disk) (o : SourceObject) (p : Procedure) :
    Option Cache.Inherited :=
  (l.workspace.scanAll d).cache.inherited? o p

theorem has_of_resolved? (h : l.resolved? d o p ≠ none) :
    Text.has inheritWord (lower (Documentation.raw p.documentation)) = true := by
  refine Tags.has_of_inherit fun hnone => h ?_
  rw [Located.resolved?, Cache.inherited?, Documentation.tags_eq_read, hnone]
  rfl

theorem inherited?_eq_iff : l.inherited? d o p = l.resolved? d o p ↔
    (l.resolved? d o p ≠ none →
      Text.has inheritWord (Documentation.raw p.documentation) = true) := by
  rw [Located.inherited?]
  split
  · next h => exact iff_of_true rfl fun _ => h
  · next h =>
    constructor
    · exact fun heq hne => absurd heq.symm hne
    · intro hmention
      by_contra hne
      exact h (hmention fun hnone => hne hnone.symm)

theorem inherited?_eq (h : MentionsInLowerCase (Documentation.raw p.documentation)) :
    l.inherited? d o p = l.resolved? d o p :=
  inherited?_eq_iff.2 fun hne => h (has_of_resolved? hne)

variable {file : Path} {line : Nat} {i : Cache.Inherited}

theorem locate_of_load {names : List Text} {root : Path} {w : Workspace}
    (hnames : d.locate? file = some names)
    (hroot : findRoot d (Names.path names.dropLast) = .ok root)
    (hload : Workspace.load d root = .ok w) :
    locate d file = .ok
      { workspace := w
        relative := (root.relativeTo? (Names.path names)).getD (Names.path names) } := by
  simp only [locate, hnames, hroot, hload, bind, Except.bind, pure, Except.pure]

theorem definition_of_inherited? {f : SourceFile} (hl : locate d file = .ok l)
    (ho : l.object d line = .ok o) (hf : l.source d = .ok f)
    (hp : procedureFor? f o (line - 1) = some p) (hi : l.inherited? d o p = some i) :
    definition d file line =
      { stdout := (l.workspace.root.join i.file).text ++ ":" ++ decimal (i.line + 1) ++ "\n"
        result := .ok 0 } := by
  simp only [definition, hl, ho, hf, hp, bind, Except.bind, pure, Except.pure, Answer.of, hi]

theorem hover_of_inherited? (hl : locate d file = .ok l) (ho : l.object d line = .ok o)
    (hp : o.declarationAt? (line - 1) = some (.procedure p)) (hi : l.inherited? d o p = some i) :
    hover d file line =
      { stdout := inheritedNote i ++ i.documentation ++ "\n", result := .ok 0 } := by
  simp only [hover, hl, ho, hp, bind, Except.bind, pure, Except.pure, Answer.of,
    Located.inheritedBy?, hi]

/-- **The short cut and the scan agree** exactly if the documentation mentions the word in lower case
wherever the scan finds something. A tag of inheritance is a mention in some case. So they agree on
all documentation that mentions the word in lower case if it mentions it at all, and then the
commands find whatever the scan finds. -/
theorem inherited?_agrees (d : Disk) (l : Located) (o : SourceObject) (p : Procedure) :
    (l.inherited? d o p = l.resolved? d o p ↔
        (l.resolved? d o p ≠ none →
          Text.has inheritWord (Documentation.raw p.documentation) = true)) ∧
      ((Documentation.tags p.documentation).inherit ≠ none →
        Text.has inheritWord (lower (Documentation.raw p.documentation)) = true) ∧
      (MentionsInLowerCase (Documentation.raw p.documentation) →
        l.inherited? d o p = l.resolved? d o p ∧
          ∀ file line f i, locate d file = .ok l → l.object d line = .ok o → l.source d = .ok f →
            l.resolved? d o p = some i →
            (procedureFor? f o (line - 1) = some p → definition d file line =
              { stdout :=
                  (l.workspace.root.join i.file).text ++ ":" ++ decimal (i.line + 1) ++ "\n"
                result := .ok 0 }) ∧
            (o.declarationAt? (line - 1) = some (.procedure p) → hover d file line =
              { stdout := inheritedNote i ++ i.documentation ++ "\n", result := .ok 0 })) := by
  refine ⟨inherited?_eq_iff, fun h => ?_, fun hcase => ⟨inherited?_eq hcase, ?_⟩⟩
  · rw [Documentation.tags_eq_read] at h
    exact Tags.has_of_inherit h
  · intro file line f i hl ho hf hi
    rw [← inherited?_eq hcase] at hi
    exact ⟨fun hp => definition_of_inherited? hl ho hf hp hi,
      fun hp => hover_of_inherited? hl ho hp hi⟩

/-- A workspace with an interface, and an object with a procedure that has a tag. -/
def tagged (tag : String) : Disk where
  entries := [(["app.json"], .file "".toUTF8),
    (["Cash.al"], .file ("codeunit 1 Cash implements IPayment\n\x7b\n/// " ++ tag ++
      "\nprocedure Pay()\n\x7d").toUTF8),
    (["IPayment.al"], .file "interface IPayment\n\x7b\n/// Pays.\nprocedure Pay()\n\x7d".toUTF8)]

/-- The file of the object in its workspace. -/
def cashFile : Located where
  workspace := { root := ⟨"/"⟩, config := {} }
  relative := ⟨"Cash.al"⟩

/-- The procedure with its tag. -/
def pay (tag : Text) : Procedure where
  access := .everywhere
  kind := .procedure
  name := "Pay"
  declaration := "procedure Pay()"
  line := 3
  range := ⟨⟨3, 0⟩, ⟨3, 15⟩⟩
  category := .normal
  isTry := false
  obsolete := none
  parameters := []
  returns := none
  documentation := some tag

/-- The object. -/
def cash (tag : Text) : SourceObject where
  keyword := "codeunit"
  number := some 1
  name := "Cash"
  relation := some ⟨.implementing, "IPayment"⟩
  file := ⟨"Cash.al"⟩
  line := 0
  access := .everywhere
  obsolete := none
  documentation := none
  procedures := [pay tag]

/-- What the interface says. -/
def inheritedPay : Cache.Inherited where
  documentation := "Pays."
  file := ⟨"IPayment.al"⟩
  line := 3
  object := "IPayment"
  procedure := "Pay"

theorem sources_tagged (tag : String) :
    cashFile.workspace.sources (tagged tag) = [⟨"Cash.al"⟩, ⟨"IPayment.al"⟩] := by
  have hordered : [⟨"Cash.al"⟩, ⟨"IPayment.al"⟩].Pairwise fun p q : Path => !q.before p := by
    decide
  exact List.mergeSort_of_pairwise hordered

theorem locate_tagged (tag : String) : locate (tagged tag) ⟨"/Cash.al"⟩ = .ok cashFile := by
  have hnames : (tagged tag).locate? ⟨"/Cash.al"⟩ = some [("Cash.al" : Text)] := rfl
  have hroot : findRoot (tagged tag) (Names.path []) = .ok ⟨"/"⟩ := rfl
  have hload : Workspace.load (tagged tag) ⟨"/"⟩ = .ok cashFile.workspace := rfl
  exact locate_of_load hnames hroot hload

/-- With the tag in lower case the commands find what the scan finds. -/
theorem inherited?_agrees_lowerCase :
    cashFile.resolved? (tagged "<inheritdoc/>") (cash "<inheritdoc/>") (pay "<inheritdoc/>") =
        some inheritedPay ∧
      cashFile.inherited? (tagged "<inheritdoc/>") (cash "<inheritdoc/>") (pay "<inheritdoc/>") =
        some inheritedPay ∧
      (definition (tagged "<inheritdoc/>") ⟨"/Cash.al"⟩ 4).stdout = "/IPayment.al:4\n" ∧
      (hover (tagged "<inheritdoc/>") ⟨"/Cash.al"⟩ 4).stdout =
        "<!-- inherited from IPayment.Pay (IPayment.al:4) -->\nPays.\n" := by
  have hobject : cashFile.object (tagged "<inheritdoc/>") 4 = .ok (cash "<inheritdoc/>") := by
    decide +kernel
  have hsource : cashFile.source (tagged "<inheritdoc/>") = .ok ⟨⟨"Cash.al"⟩,
      ["codeunit 1 Cash implements IPayment", "\x7b", "/// <inheritdoc/>", "procedure Pay()",
        "\x7d"]⟩ := by
    decide +kernel
  have hresolved : cashFile.resolved? (tagged "<inheritdoc/>") (cash "<inheritdoc/>")
      (pay "<inheritdoc/>") = some inheritedPay := by
    rw [Located.resolved?, Workspace.scanAll_eq, sources_tagged]
    decide +kernel
  obtain ⟨-, -, hagrees⟩ := inherited?_agrees (tagged "<inheritdoc/>") cashFile
    (cash "<inheritdoc/>") (pay "<inheritdoc/>")
  obtain ⟨hinherited, hcommands⟩ := hagrees (by decide +kernel)
  obtain ⟨hdefinition, hhover⟩ :=
    hcommands _ 4 _ _ (locate_tagged _) hobject hsource hresolved
  refine ⟨hresolved, hinherited.trans hresolved, ?_, ?_⟩
  · rw [hdefinition (by decide +kernel)]
    decide +kernel
  · rw [hhover (by decide +kernel)]
    decide +kernel

/-- A tag with capitals is found by the scan and spares the procedure all findings, but the
commands overlook it. -/
theorem inherited?_ne_capitals :
    cashFile.object (tagged "<InheritDoc/>") 4 = .ok (cash "<InheritDoc/>") ∧
      (pay "<InheritDoc/>").shortcomings = [] ∧
      cashFile.resolved? (tagged "<InheritDoc/>") (cash "<InheritDoc/>") (pay "<InheritDoc/>") =
        some inheritedPay ∧
      cashFile.inherited? (tagged "<InheritDoc/>") (cash "<InheritDoc/>") (pay "<InheritDoc/>") =
        none ∧
      (definition (tagged "<InheritDoc/>") ⟨"/Cash.al"⟩ 4).result = .ok 1 := by
  refine ⟨by decide +kernel, by decide +kernel, ?_, by decide +kernel, by decide +kernel⟩
  rw [Located.resolved?, Workspace.scanAll_eq, sources_tagged]
  decide +kernel

end Command

end DocAudit
