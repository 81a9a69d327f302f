import Mathlib.Data.List.Forall2
import Mathlib.Tactic.ByContra
import DocAudit.Proofs.Finding.Elements
import DocAudit.Proofs.Path
import DocAudit.Proofs.Reading.Declarations

/-!
# One finding for each declaration

The findings of an object are about its declarations in order: about the object itself, then about
its procedures. A declaration either has one finding or none, and the finding says what is wrong
with that declaration alone. The settings only decide which declarations are checked, so settings
that ask for more leave every finding as it is and add others.

* `FirstOccurrences`, `firstOccurrences_distinct`: the members of a list without repeats.
* `splitAll_mergedCode`: the codes in a merged code.
* `SourceObject.evaluate_eq`: the findings, declaration by declaration.
* `Finding.Reports`, `SourceObject.evaluate_reports`: what a finding says about its declaration.
* `Settings.Within`, `SourceObject.evaluate_sublist`: settings that ask for more add findings.
-/

namespace DocAudit

/-! ## Lists -/

section

variable {α β : Type}

/-- A list has the members of another one without repeats, in the order in which they occur there
first. -/
structure FirstOccurrences [BEq α] (l distinct : List α) : Prop where
  nodup : distinct.Nodup
  mem_iff : ∀ a, a ∈ distinct ↔ a ∈ l
  ordered : distinct.Pairwise fun a b => l.idxOf a < l.idxOf b

theorem mem_distinct_iff [BEq α] [LawfulBEq α] {l : List α} {a : α} : a ∈ distinct l ↔ a ∈ l := by
  induction l with
  | nil => rfl
  | cons b l ih =>
    rw [distinct, List.mem_cons, List.mem_cons, List.mem_filter, ih, bne_iff_ne]
    by_cases h : a = b
    · simp [h]
    · simp [h]

/-- **Each member is kept where it occurs first.** -/
theorem firstOccurrences_distinct [BEq α] [LawfulBEq α] (l : List α) :
    FirstOccurrences l (distinct l) := by
  refine ⟨?_, fun _ => mem_distinct_iff, ?_⟩
  · induction l with
    | nil => exact List.nodup_nil
    | cons a l ih => exact List.nodup_cons.2 ⟨by simp, ih.filter _⟩
  · induction l with
    | nil => exact List.Pairwise.nil
    | cons a l ih =>
      -- What is left of the other members differs from the first one, so it occurs one place later.
      have hlater {b : α} (hb : b ∈ (distinct l).filter (· != a)) :
          (a :: l).idxOf b = l.idxOf b + 1 :=
        List.idxOf_cons_ne l (bne_iff_ne.1 (List.mem_filter.1 hb).2).symm
      refine List.pairwise_cons.2 ⟨fun b hb => ?_, ?_⟩
      · rw [hlater hb, List.idxOf_cons_self]
        exact Nat.succ_pos _
      · refine (ih.filter _).imp_of_mem fun {b c} hb hc hlt => ?_
        rw [hlater hb, hlater hc]
        exact Nat.succ_lt_succ hlt

/-- What a partial function yields on a list belongs to the members where it is defined, one by
one. -/
theorem forall₂_filter_filterMap {f : α → Option β} {R : α → β → Prop}
    (h : ∀ a b, f a = some b → R a b) (l : List α) :
    List.Forall₂ R (l.filter fun a => (f a).isSome) (l.filterMap f) := by
  induction l with
  | nil => exact List.Forall₂.nil
  | cons a l ih =>
    cases hf : f a with
    | none =>
      rw [List.filterMap_cons_none hf, List.filter_cons_of_neg (by simp [hf])]
      exact ih
    | some b =>
      rw [List.filterMap_cons_some hf, List.filter_cons_of_pos (by simp [hf])]
      exact List.Forall₂.cons (h a b hf) ih

theorem filterMap_sublist_filterMap {f g : α → Option β}
    (h : ∀ a b, f a = some b → g a = some b) (l : List α) :
    (l.filterMap f).Sublist (l.filterMap g) := by
  induction l with
  | nil => exact List.Sublist.refl _
  | cons a l ih =>
    cases hf : f a with
    | none =>
      rw [List.filterMap_cons_none hf]
      exact ih.trans ((List.sublist_cons_self a l).filterMap g)
    | some b =>
      rw [List.filterMap_cons_some hf, List.filterMap_cons_some (h a b hf)]
      exact ih.cons_cons b

end

/-! ## Codes -/

theorem Shortcoming.comma_not_mem_code (x : Shortcoming) : ',' ∉ x.code := by
  cases x with
  | noParameter name => exact (by decide : ',' ∉ ("DOC0020" : Text))
  | extraParameter name => exact (by decide : ',' ∉ ("DOC0021" : Text))
  | _ => decide

/-- **A merged code is the list of its codes.** -/
theorem splitAll_mergedCode {l : List Shortcoming} (h : l ≠ []) :
    splitAll (· = ',') (mergedCode l) = distinct (l.map Shortcoming.code) := by
  have hmem {code : Text} : code ∈ distinct (l.map Shortcoming.code) ↔
      code ∈ l.map Shortcoming.code := mem_distinct_iff
  refine splitAll_intercalate (fun hnil => ?_) fun code hcode => ?_
  · obtain ⟨x, hx⟩ := List.exists_mem_of_ne_nil l h
    have hcode := hmem.2 (List.mem_map_of_mem hx)
    rw [hnil] at hcode
    cases hcode
  · obtain ⟨x, -, rfl⟩ := List.mem_map.1 (hmem.1 hcode)
    exact x.comma_not_mem_code

/-! ## Declarations -/

namespace Declaration

/-- Which kind of declaration it is. -/
def target : Declaration → Target
  | object _ => .object
  | procedure _ => .procedure

/-- The word for a declaration in a sentence. -/
def word : Declaration → Text
  | object o => lower o.keyword
  | procedure p => p.kind.word

/-- The name of a declaration. -/
def name : Declaration → Text
  | object o => o.name
  | procedure p => p.name

/-- The place of a declaration: the header line of an object, the signature of a procedure. -/
def range : Declaration → Range
  | object o => ⟨⟨o.line, 0⟩, ⟨o.line + 1, 0⟩⟩
  | procedure p => p.range

/-- Whether a declaration is checked. -/
def isChecked (s : Settings) : Declaration → Bool
  | object o => o.isChecked s
  | procedure p => s.checkProcedures && p.isChecked s

/-- What the documentation of a declaration lacks or has too much of. -/
def shortcomings : Declaration → List Shortcoming
  | object o => o.headerShortcomings
  | procedure p => p.shortcomings

variable {d : Declaration}

theorem shortcomings_eq_of_undocumented (h : d.documentation = none) :
    d.shortcomings = [.undocumented] := by
  cases d with
  | object o =>
    have h : o.documentation = none := h
    rw [shortcomings, SourceObject.headerShortcomings, h]
  | procedure p =>
    have h : p.documentation = none := h
    rw [shortcomings, Procedure.shortcomings, h]

theorem eq_of_mem_headerShortcomings {o : SourceObject} {raw : Text}
    (h : o.documentation = some raw) : ∀ x ∈ o.headerShortcomings, x = .noSummary := by
  rw [SourceObject.headerShortcomings, h]
  simp only
  split
  · exact List.forall_mem_nil _
  · exact List.forall_mem_singleton.2 rfl

theorem undocumented_mem_iff : .undocumented ∈ d.shortcomings ↔ d.documentation = none := by
  refine ⟨fun hmem => ?_, fun h => ?_⟩
  · by_contra hne
    obtain ⟨raw, h⟩ := Option.ne_none_iff_exists'.1 hne
    cases d with
    | object o => cases eq_of_mem_headerShortcomings h _ hmem
    | procedure p =>
      have h : p.documentation = some raw := h
      rw [shortcomings, Procedure.shortcomings, h] at hmem
      exact undocumented_not_mem_shortcomings p _ hmem
  · rw [shortcomings_eq_of_undocumented h]
    exact List.mem_singleton_self _

theorem eq_or_eq_of_mem_shortcomings (h : d.target = .object) {x : Shortcoming}
    (hx : x ∈ d.shortcomings) : x = .undocumented ∨ x = .noSummary := by
  cases d with
  | procedure p => cases h
  | object o =>
    cases hd : o.documentation with
    | none =>
      rw [shortcomings_eq_of_undocumented (d := .object o) hd] at hx
      exact Or.inl (List.mem_singleton.1 hx)
    | some raw => exact Or.inr (eq_of_mem_headerShortcomings hd x hx)

end Declaration

namespace SourceObject

/-- The finding about a declaration in the file of the object. -/
def finding? (o : SourceObject) (s : Settings) (d : Declaration) : Option Finding :=
  if d.isChecked s && !d.shortcomings.isEmpty then
    some (o.finding s d.target d.word d.name d.range d.shortcomings)
  else none

variable {o : SourceObject} {s t : Settings} {d : Declaration} {f : Finding}

theorem finding?_eq_some_iff : o.finding? s d = some f ↔ d.isChecked s = true ∧
    d.shortcomings ≠ [] ∧ f = o.finding s d.target d.word d.name d.range d.shortcomings := by
  rw [finding?, Option.ite_none_right_eq_some, Bool.and_eq_true, Bool.not_eq_true',
    List.isEmpty_eq_false_iff, Option.some_inj, and_assoc, eq_comm (b := f)]

/-- **Findings come declaration by declaration.** -/
theorem evaluate_eq (o : SourceObject) (s : Settings) :
    o.evaluate s = o.declarations.filterMap (o.finding? s) := by
  have hprocedures : (o.procedures.map Declaration.procedure).filterMap (o.finding? s) =
      if s.checkProcedures then o.procedures.filterMap (o.procedureFinding? s) else [] := by
    rw [List.filterMap_map]
    cases h : s.checkProcedures with
    | false =>
      refine List.filterMap_eq_nil_iff.2 fun p _ => ?_
      simp only [Function.comp_apply, finding?, Declaration.isChecked, h, Bool.false_and,
        Bool.false_eq_true, if_false]
    | true =>
      refine congrArg (List.filterMap · o.procedures) (funext fun p => ?_)
      simp only [Function.comp_apply, finding?, Declaration.isChecked, h, Bool.true_and]
      rfl
  rw [evaluate, declarations, List.filterMap_cons, hprocedures]
  have hheader : o.finding? s (.object o) = o.headerFinding? s := rfl
  rw [hheader]
  cases o.headerFinding? s <;> rfl

end SourceObject

/-! ## What a finding says -/

/-- A finding reports on a declaration of an object: it stands at the declaration, says that there
is no documentation and nothing else, or which elements are wrong, and has the codes of all that. -/
structure Finding.Reports (o : SourceObject) (s : Settings) (d : Declaration) (f : Finding) :
    Prop where
  target : f.target = d.target
  name : f.name = d.name
  range : f.range = d.range
  file : f.file = o.file
  severity : f.severity = s.severity
  ne_nil : f.shortcomings ≠ []
  undocumented_iff : .undocumented ∈ f.shortcomings ↔ d.documentation = none
  alone : .undocumented ∈ f.shortcomings → f.shortcomings = [.undocumented]
  code : FirstOccurrences (f.shortcomings.map Shortcoming.code) (splitAll (· = ',') f.code)
  header : d.target = .object → ∀ x ∈ f.shortcomings, x = .undocumented ∨ x = .noSummary

namespace SourceObject

variable {o : SourceObject} {s : Settings} {d : Declaration} {f : Finding}

theorem reports_of_finding? (h : o.finding? s d = some f) : Finding.Reports o s d f := by
  obtain ⟨-, hne, rfl⟩ := finding?_eq_some_iff.1 h
  exact {
    target := rfl
    name := rfl
    range := rfl
    file := rfl
    severity := rfl
    ne_nil := hne
    undocumented_iff := Declaration.undocumented_mem_iff
    alone := fun hmem =>
      Declaration.shortcomings_eq_of_undocumented (Declaration.undocumented_mem_iff.1 hmem)
    code := by
      show FirstOccurrences (d.shortcomings.map Shortcoming.code)
        (splitAll (· = ',') (mergedCode d.shortcomings))
      rw [splitAll_mergedCode hne]
      exact firstOccurrences_distinct _
    header := fun hd _ => Declaration.eq_or_eq_of_mem_shortcomings hd }

theorem isSome_finding?_iff :
    (o.finding? s d).isSome = true ↔ d.isChecked s = true ∧ d.shortcomings ≠ [] := by
  rw [Option.isSome_iff_exists]
  constructor
  · rintro ⟨f, hf⟩
    obtain ⟨hchecked, hne, -⟩ := finding?_eq_some_iff.1 hf
    exact ⟨hchecked, hne⟩
  · rintro ⟨hchecked, hne⟩
    exact ⟨_, finding?_eq_some_iff.2 ⟨hchecked, hne, rfl⟩⟩

/-- **One finding for each declaration at most, in their order**: those that are checked and are not
documented as they should be have one, and it reports on its declaration. -/
theorem evaluate_reports (o : SourceObject) (s : Settings) :
    ∃ ds, ds.Sublist o.declarations ∧ List.Forall₂ (Finding.Reports o s) ds (o.evaluate s) ∧
      ∀ d ∈ o.declarations, d ∈ ds ↔ d.isChecked s = true ∧ d.shortcomings ≠ [] := by
  refine ⟨o.declarations.filter fun d => (o.finding? s d).isSome, List.filter_sublist, ?_, ?_⟩
  · rw [evaluate_eq]
    exact forall₂_filter_filterMap (fun _ _ => reports_of_finding?) o.declarations
  · intro d hd
    rw [List.mem_filter, isSome_finding?_iff, and_iff_right hd]

end SourceObject

/-! ## Stricter settings -/

/-- Settings ask for nothing that others do not ask for, and report it as gravely. -/
structure Settings.Within (s t : Settings) : Prop where
  accessLevels : s.accessLevels ⊆ t.accessLevels
  checkObjects : s.checkObjects = true → t.checkObjects = true
  checkProcedures : s.checkProcedures = true → t.checkProcedures = true
  checkTriggers : s.checkTriggers = true → t.checkTriggers = true
  checkObsolete : s.checkObsolete = true → t.checkObsolete = true
  severity : s.severity = t.severity

section

variable {s t : Settings}

theorem Settings.Within.requires (h : s.Within t) {access : Access}
    (ha : s.requires access = true) : t.requires access = true := by
  rw [Settings.requires, List.contains_iff_mem] at *
  exact h.accessLevels ha

theorem Declaration.isChecked_mono (h : s.Within t) {d : Declaration}
    (hd : d.isChecked s = true) : d.isChecked t = true := by
  cases d with
  | object o =>
    simp only [isChecked, SourceObject.isChecked, Bool.and_eq_true, Bool.or_eq_true] at *
    obtain ⟨⟨hobjects, haccess⟩, hobsolete⟩ := hd
    exact ⟨⟨h.checkObjects hobjects, h.requires haccess⟩, hobsolete.imp_right h.checkObsolete⟩
  | procedure p =>
    simp only [isChecked, Procedure.isChecked, Bool.and_eq_true, Bool.or_eq_true] at *
    obtain ⟨hprocedures, ⟨haccess, htrigger⟩, hobsolete⟩ := hd
    exact ⟨h.checkProcedures hprocedures, ⟨h.requires haccess,
      htrigger.imp_right h.checkTriggers⟩, hobsolete.imp_right h.checkObsolete⟩

namespace SourceObject

variable {o : SourceObject} {d : Declaration} {f : Finding}

/-- **A finding stays as it is** when the settings ask for more: they enter it by its severity
only. -/
theorem finding?_mono (h : s.Within t) (hf : o.finding? s d = some f) :
    o.finding? t d = some f := by
  obtain ⟨hchecked, hne, rfl⟩ := finding?_eq_some_iff.1 hf
  refine finding?_eq_some_iff.2 ⟨Declaration.isChecked_mono h hchecked, hne, ?_⟩
  rw [finding, finding, h.severity]

/-- **Settings that ask for more only add findings.** -/
theorem evaluate_sublist (o : SourceObject) (h : s.Within t) :
    (o.evaluate s).Sublist (o.evaluate t) := by
  rw [evaluate_eq, evaluate_eq]
  exact filterMap_sublist_filterMap (fun _ _ => finding?_mono h) o.declarations

/-- A file with procedures that not all settings ask about. -/
def mixedTools : SourceFile where
  path := ⟨"Tools.al"⟩
  lines := ["codeunit 1 Tools", "\x7b", "trigger OnRun()", "[Obsolete('Gone')]", "procedure Old()",
    "local procedure Help()", "procedure Run()", "\x7d"]

/-- Only public procedures are checked. -/
def publicOnly : Settings where
  accessLevels := [.everywhere]
  checkObjects := false

/-- Everything is checked. -/
def everything : Settings where
  checkObsolete := true
  checkTriggers := true

theorem evaluate_sublist_mixedTools :
    publicOnly.Within everything ∧
      ∃ o, mixedTools.object? {} = some o ∧
        (o.evaluate publicOnly).map (·.name) = (["Run"] : List Text) ∧
        (o.evaluate everything).map (·.name) =
          (["Tools", "OnRun", "Old", "Help", "Run"] : List Text) ∧
        (o.evaluate publicOnly).Sublist (o.evaluate everything) := by
  have hwithin : publicOnly.Within everything := {
    accessLevels := fun access _ => Access.mem_all access
    checkObjects := nofun
    checkProcedures := id
    checkTriggers := nofun
    checkObsolete := nofun
    severity := rfl }
  have hnames : ((mixedTools.object? {}).map fun o =>
      ((o.evaluate publicOnly).map (·.name), (o.evaluate everything).map (·.name))) =
        some ((["Run"] : List Text), (["Tools", "OnRun", "Old", "Help", "Run"] : List Text)) := by
    decide +kernel
  obtain ⟨o, ho, heq⟩ := Option.map_eq_some_iff.1 hnames
  obtain ⟨hpublic, hall⟩ := Prod.mk.inj heq
  exact ⟨hwithin, o, ho, hpublic, hall, evaluate_sublist o hwithin⟩

end SourceObject

end

end DocAudit
