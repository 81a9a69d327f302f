import Mathlib.Logic.Basic
import Mathlib.Tactic.SplitIfs
import DocAudit.Finding.Evaluation
import DocAudit.Proofs.Documentation.Block

/-!
# Findings and the elements of the documentation

The documentation of a procedure is compared with its signature in both directions: what is declared
may be missing from the documentation, and what is documented may not be declared. The two searches
never speak of the same name, and the report lists what they find in a fixed order.

A summary, a return value or a parameter counts as documented when the first of its elements has
text; the others are not looked at. So a report follows the elements, whatever their number and
order, exactly if wherever one element of a kind has text the first one has.

* `Shortcoming.rank`, `Procedure.undescribed`, `Procedure.undeclared`: the order and the two searches.
* `Shortcoming.Holds`, `mem_shortcomings_iff`: what a report lists.
* `shortcomings_inOrder`: how it lists it.
* `Procedure.FollowsElements`, `FirstSpeaks`: a report that follows the elements of the block, and
  when there is one.
* `Procedure.followsElements_iff`: the two are equivalent.
-/

namespace DocAudit

open Markup

/-! ## Two searches -/

namespace Shortcoming

/-- The place of a shortcoming in a report. -/
def rank : Shortcoming → Nat
  | undocumented => 0
  | noSummary => 1
  | noParameter _ => 2
  | noReturn => 3
  | extraParameter _ => 4
  | extraReturn => 5

/-- The declared parameter that is missing from the documentation. -/
def missing? : Shortcoming → Option Text
  | noParameter name => some name
  | _ => none

/-- The documented parameter that is not declared. -/
def extra? : Shortcoming → Option Text
  | extraParameter name => some name
  | _ => none

/-- Whether the documentation says too much, and not too little. -/
def isExtra : Shortcoming → Bool
  | extraParameter _ => true
  | extraReturn => true
  | _ => false

end Shortcoming

namespace Procedure

/-- A procedure declares a parameter of this name, in any case. -/
def Declares (p : Procedure) (name : Text) : Prop :=
  ∃ q ∈ p.parameters, sameWord q.name name = true

instance (p : Procedure) : DecidablePred p.Declares :=
  fun name => inferInstanceAs (Decidable (∃ q ∈ p.parameters, sameWord q.name name = true))

/-- The declared parameters that have no tag, or an empty one. -/
def undescribed (p : Procedure) (tags : Tags) : List Text :=
  (p.parameters.filter fun q => !(tags.parameter? q.name).any (!·.text.isEmpty)).map (·.name)

/-- The tags that name no declared parameter. -/
def undeclared (p : Procedure) (tags : Tags) : List Text :=
  (tags.parameters.filter fun t => ¬ p.Declares t.name).map (·.name)

variable {p : Procedure} {tags : Tags} {name : Text}

theorem mem_undescribed_iff : name ∈ p.undescribed tags ↔
    (∃ q ∈ p.parameters, q.name = name) ∧
      (tags.parameter? name).any (!·.text.isEmpty) = false := by
  simp only [undescribed, List.mem_map, List.mem_filter, Bool.not_eq_true']
  constructor
  · rintro ⟨q, ⟨hq, hempty⟩, rfl⟩
    exact ⟨⟨q, hq, rfl⟩, hempty⟩
  · rintro ⟨⟨q, hq, rfl⟩, hempty⟩
    exact ⟨q, ⟨hq, hempty⟩, rfl⟩

theorem mem_undeclared_iff : name ∈ p.undeclared tags ↔
    (∃ t ∈ tags.parameters, t.name = name) ∧ ¬ p.Declares name := by
  simp only [undeclared, List.mem_map, List.mem_filter, decide_eq_true_eq]
  constructor
  · rintro ⟨t, ⟨ht, hnot⟩, rfl⟩
    exact ⟨⟨t, ht, rfl⟩, hnot⟩
  · rintro ⟨⟨t, ht, rfl⟩, hnot⟩
    exact ⟨t, ⟨ht, hnot⟩, rfl⟩

theorem undescribed_sublist : (p.undescribed tags).Sublist (p.parameters.map (·.name)) :=
  List.filter_sublist.map _

/-- **The two searches exclude each other.** -/
theorem not_sameWord_of_mem {missing extra : Text} (hm : missing ∈ p.undescribed tags)
    (he : extra ∈ p.undeclared tags) : sameWord missing extra = false := by
  obtain ⟨⟨q, hq, rfl⟩, -⟩ := mem_undescribed_iff.1 hm
  exact Bool.eq_false_iff.2 fun hsame => (mem_undeclared_iff.1 he).2 ⟨q, hq, hsame⟩

end Procedure

/-! ## A report in order -/

section

variable {p : Procedure} {tags : Tags}

theorem shortcomings_eq (h : tags.inherit = none) : shortcomings p tags =
    (if hasText tags.summary then [] else [Shortcoming.noSummary]) ++
      ((p.undescribed tags).map Shortcoming.noParameter ++
        ((if p.returns.isSome && !hasText tags.returns then [Shortcoming.noReturn] else []) ++
          ((p.undeclared tags).map Shortcoming.extraParameter ++
            if p.returns.isNone && tags.returns.isSome then [Shortcoming.extraReturn] else []))) := by
  have hdeclares (t : ParameterTag) :
      (!p.parameters.any (sameWord ·.name t.name)) = decide (¬ p.Declares t.name) := by
    rw [decide_not, List.any_eq]
    rfl
  rw [shortcomings, h, Option.isSome_none, if_neg Bool.false_ne_true]
  simp only [hdeclares, Procedure.undescribed, Procedure.undeclared, List.map_map,
    Function.comp_def, List.append_assoc]

/-- What a shortcoming says about a procedure and the tags of its documentation. -/
def Shortcoming.Holds (p : Procedure) (tags : Tags) : Shortcoming → Prop
  | undocumented => False
  | noSummary => hasText tags.summary = false
  | noParameter name => name ∈ p.undescribed tags
  | noReturn => p.returns.isSome = true ∧ hasText tags.returns = false
  | extraParameter name => name ∈ p.undeclared tags
  | extraReturn => tags.returns.isSome = true ∧ p.returns = none

/-- **A report lists the shortcomings that hold.** -/
theorem mem_shortcomings_iff (h : tags.inherit = none) (x : Shortcoming) :
    x ∈ shortcomings p tags ↔ x.Holds p tags := by
  rw [shortcomings_eq h]
  cases x <;> simp [Shortcoming.Holds, and_comm]

theorem undocumented_not_mem_shortcomings (p : Procedure) (tags : Tags) :
    .undocumented ∉ shortcomings p tags := by
  intro hmem
  cases h : tags.inherit with
  | none => exact (mem_shortcomings_iff h _).1 hmem
  | some reference =>
    rw [shortcomings, h, Option.isSome_some, if_pos rfl] at hmem
    cases hmem

/-- Shortcomings in order, none of them before the place `n`. -/
structure RankedFrom (n : Nat) (l : List Shortcoming) : Prop where
  ordered : l.Pairwise fun a b => a.rank ≤ b.rank
  from_le : ∀ x ∈ l, n ≤ x.rank

theorem rankedFrom_part {n : Nat} {part : List Shortcoming} (h : ∀ x ∈ part, x.rank = n) :
    RankedFrom n part where
  ordered := List.pairwise_of_forall_mem_list fun a ha b hb =>
    Nat.le_of_eq ((h a ha).trans (h b hb).symm)
  from_le := fun x hx => Nat.le_of_eq (h x hx).symm

/-- A part of one rank goes before whatever ranks higher. -/
theorem RankedFrom.append {n : Nat} {part rest : List Shortcoming}
    (hpart : ∀ x ∈ part, x.rank = n) (hrest : RankedFrom (n + 1) rest) :
    RankedFrom n (part ++ rest) := by
  have hlater : ∀ x ∈ rest, n ≤ x.rank := fun x hx => Nat.le_of_succ_le (hrest.from_le x hx)
  refine ⟨List.pairwise_append.2 ⟨(rankedFrom_part hpart).ordered, hrest.ordered, ?_⟩, ?_⟩
  · intro a ha b hb
    rw [hpart a ha]
    exact hlater b hb
  · intro x hx
    rcases List.mem_append.1 hx with hx | hx
    · exact Nat.le_of_eq (hpart x hx).symm
    · exact hlater x hx

theorem pairwise_rank_shortcomings (h : tags.inherit = none) :
    (shortcomings p tags).Pairwise fun a b => a.rank ≤ b.rank := by
  have hsingle {c : Prop} [Decidable c] (x : Shortcoming) :
      ∀ y ∈ if c then [x] else [], y.rank = x.rank := by
    intro y hy
    rw [List.mem_ite_nil_right, List.mem_singleton] at hy
    rw [hy.2]
  have hsummary : ∀ x ∈ if hasText tags.summary then [] else [Shortcoming.noSummary],
      x.rank = 1 := by
    rw [← ite_not]
    exact hsingle .noSummary
  have hmissing : ∀ x ∈ (p.undescribed tags).map Shortcoming.noParameter, x.rank = 2 :=
    List.forall_mem_map.2 fun _ _ => rfl
  have hextra : ∀ x ∈ (p.undeclared tags).map Shortcoming.extraParameter, x.rank = 4 :=
    List.forall_mem_map.2 fun _ _ => rfl
  rw [shortcomings_eq h]
  exact (RankedFrom.append hsummary (.append hmissing (.append (hsingle .noReturn)
    (.append hextra (rankedFrom_part (hsingle .extraReturn)))))).ordered

theorem filterMap_missing?_shortcomings (h : tags.inherit = none) :
    (shortcomings p tags).filterMap Shortcoming.missing? = p.undescribed tags := by
  rw [shortcomings_eq h]
  simp only [List.filterMap_append, List.filterMap_map]
  split_ifs <;> simp [Shortcoming.missing?, Function.comp_def, List.filterMap_cons]

theorem filterMap_extra?_shortcomings (h : tags.inherit = none) :
    (shortcomings p tags).filterMap Shortcoming.extra? = p.undeclared tags := by
  rw [shortcomings_eq h]
  simp only [List.filterMap_append, List.filterMap_map]
  split_ifs <;> simp [Shortcoming.extra?, Function.comp_def, List.filterMap_cons]

theorem count_shortcomings_le (h : tags.inherit = none) {x : Shortcoming}
    (hm : x.missing? = none) (he : x.extra? = none) : (shortcomings p tags).count x ≤ 1 := by
  have hmap {f : Text → Shortcoming} (hf : ∀ name, f name ≠ x) (names : List Text) :
      (names.map f).count x = 0 := by
    refine List.count_eq_zero.2 fun hx => ?_
    obtain ⟨name, -, hname⟩ := List.mem_map.1 hx
    exact hf name hname
  rw [shortcomings_eq h]
  simp only [List.count_append]
  cases x with
  | noParameter name => cases hm
  | extraParameter name => cases he
  | _ => split_ifs <;> simp [hmap]

/-- A report on the elements of a documentation lists a missing summary, then the declared
parameters that are missing, a missing return value, the documented parameters that are not
declared, and a return value that is not declared. -/
structure ReportsElements (p : Procedure) (tags : Tags) (report : List Shortcoming) : Prop where
  ordered : report.Pairwise fun a b => a.rank ≤ b.rank
  documented : .undocumented ∉ report
  summary_once : report.count .noSummary ≤ 1
  missing : (report.filterMap Shortcoming.missing?).Sublist (p.parameters.map (·.name))
  return_once : report.count .noReturn ≤ 1
  extra : report.filterMap Shortcoming.extra? =
    (tags.parameters.filter fun t => ¬ p.Declares t.name).map (·.name)
  extraReturn_once : report.count .extraReturn ≤ 1
  extraReturn_iff : .extraReturn ∈ report ↔ tags.returns.isSome = true ∧ p.returns = none
  namesApart : ∀ missing extra, .noParameter missing ∈ report → .extraParameter extra ∈ report →
    sameWord missing extra = false
  returnsApart : .noReturn ∈ report → .extraReturn ∉ report

theorem reportsElements_shortcomings (p : Procedure) (h : tags.inherit = none) :
    ReportsElements p tags (shortcomings p tags) where
  ordered := pairwise_rank_shortcomings h
  documented := undocumented_not_mem_shortcomings p tags
  summary_once := count_shortcomings_le h rfl rfl
  missing := by
    rw [filterMap_missing?_shortcomings h]
    exact Procedure.undescribed_sublist
  return_once := count_shortcomings_le h rfl rfl
  extra := filterMap_extra?_shortcomings h
  extraReturn_once := count_shortcomings_le h rfl rfl
  extraReturn_iff := mem_shortcomings_iff h _
  namesApart := fun _ _ hm he => Procedure.not_sameWord_of_mem
    ((mem_shortcomings_iff h _).1 hm) ((mem_shortcomings_iff h _).1 he)
  returnsApart := fun hm he => by
    have hsome := ((mem_shortcomings_iff h _).1 hm).1
    rw [((mem_shortcomings_iff h _).1 he).2] at hsome
    cases hsome

theorem isExtra_eq_false_of_malformed {raw : Text} (h : (Tags.read raw).malformed = true)
    {x : Shortcoming} (hx : x ∈ shortcomings p (Tags.read raw)) : x.isExtra = false := by
  rw [Tags.read_eq_of_malformed h, mem_shortcomings_iff rfl] at hx
  cases x with
  | extraParameter name =>
    obtain ⟨⟨t, ht, -⟩, -⟩ := Procedure.mem_undeclared_iff.1 hx
    exact absurd ht List.not_mem_nil
  | extraReturn => cases hx.1
  | _ => rfl

/-- **Both comparisons in one report.** It lists what is missing and what is unnecessary in order,
never under the same name, and for a block that is not well-formed nothing is unnecessary. -/
theorem shortcomings_inOrder (p : Procedure) :
    (∀ tags : Tags, tags.inherit = none → ReportsElements p tags (shortcomings p tags)) ∧
      ∀ raw, (Tags.read raw).malformed = true →
        ∀ x ∈ shortcomings p (Tags.read raw), x.isExtra = false :=
  ⟨fun _ h => reportsElements_shortcomings p h, fun _ h _ hx => isExtra_eq_false_of_malformed h hx⟩

/-- A procedure with two parameters that returns nothing. -/
def copyItem : Procedure where
  access := .everywhere
  kind := .procedure
  name := "Copy"
  declaration := "procedure Copy(Source: Item; var Target: Item)"
  line := 2
  range := ⟨⟨2, 0⟩, ⟨2, 46⟩⟩
  category := .normal
  isTry := false
  obsolete := none
  parameters := [⟨⟨"Source", "Item", none, false, false⟩, none⟩,
    ⟨⟨"Target", "Item", none, true, false⟩, none⟩]
  returns := none
  documentation := none

/-- Tags of which one names a parameter in another case, and the others fit nothing. -/
def copyTags : Tags where
  returns := some ⟨"<returns>Nothing.</returns>", "Nothing."⟩
  parameters := [⟨"Count", "<param name=\"Count\"/>", []⟩,
    ⟨"TARGET", "<param name=\"TARGET\">New.</param>", "New."⟩,
    ⟨"COUNT", "<param name=\"COUNT\">Old.</param>", "Old."⟩]

theorem shortcomings_inOrder_copyItem :
    copyTags.inherit = none ∧
      ReportsElements copyItem copyTags (shortcomings copyItem copyTags) ∧
      shortcomings copyItem copyTags = [.noSummary, .noParameter "Source",
        .extraParameter "Count", .extraParameter "COUNT", .extraReturn] ∧
      (Tags.read "<returns>Nothing.").malformed = true ∧
      ∀ x ∈ shortcomings copyItem (Tags.read "<returns>Nothing."), x.isExtra = false := by
  have hmalformed : (Tags.read "<returns>Nothing.").malformed = true := by decide +kernel
  obtain ⟨hreports, hextra⟩ := shortcomings_inOrder copyItem
  exact ⟨rfl, hreports copyTags rfl, by decide +kernel, hmalformed, hextra _ hmalformed⟩

end

/-! ## The elements of the block -/

section

variable {P : Element → Bool} {raw : Text} {es : List Element}

/-- The first of some elements has text if any has. -/
def FirstSpeaks (P : Element → Bool) (es : List Element) : Prop :=
  (∃ e ∈ es, P e = true ∧ e.body ≠ []) → ∃ first ∈ es.find? P, first.body ≠ []

instance (P : Element → Bool) (es : List Element) : Decidable (FirstSpeaks P es) :=
  inferInstanceAs (Decidable (_ → _))

/-- Going by the first element tells whether none has text, exactly if the first has text when any
has. -/
theorem firstSpeaks_iff : ((es.find? P).any (!·.body.isEmpty) = false ↔
    ∀ e ∈ es, P e = true → e.body = []) ↔ FirstSpeaks P es := by
  have hspoken : (es.find? P).any (!·.body.isEmpty) = false ↔
      ¬ ∃ first ∈ es.find? P, first.body ≠ [] := by
    simp [Option.any_eq_false]
  have hsilent : (∀ e ∈ es, P e = true → e.body = []) ↔
      ¬ ∃ e ∈ es, P e = true ∧ e.body ≠ [] := by
    simp
  have hmem : (∃ first ∈ es.find? P, first.body ≠ []) → ∃ e ∈ es, P e = true ∧ e.body ≠ [] :=
    fun ⟨first, hfirst, hbody⟩ =>
      ⟨first, List.mem_of_find?_eq_some hfirst, List.find?_some hfirst, hbody⟩
  rw [hspoken, hsilent, not_iff_not, FirstSpeaks]
  exact ⟨fun h => h.2, fun h => ⟨hmem, h⟩⟩

theorem hasText_summary_read (h : Tags.elements? raw = some es) :
    hasText (Tags.read raw).summary = (es.find? (·.isKind "summary")).any (!·.body.isEmpty) := by
  rw [Tags.read_eq h, hasText, Option.any_map]
  rfl

theorem hasText_returns_read (h : Tags.elements? raw = some es) :
    hasText (Tags.read raw).returns = (es.find? (·.isKind "returns")).any (!·.body.isEmpty) := by
  rw [Tags.read_eq h, hasText, Option.any_map]
  rfl

theorem hasText_parameter?_read (h : Tags.elements? raw = some es) (name : Text) :
    ((Tags.read raw).parameter? name).any (!·.text.isEmpty) =
      (es.find? (·.isAbout name)).any (!·.body.isEmpty) := by
  have habout : (fun e : Element => (e.parameter?.map
      (Tags.tagOf raw (escapeStray raw) e).about).any (sameWord ·.name name)) =
        (·.isAbout name) := by
    funext e
    rw [Option.any_map]
    rfl
  rw [Tags.read_eq h, Tags.parameter?, List.find?_filterMap, habout]
  cases hfind : es.find? (·.isAbout name) with
  | none => rfl
  | some e =>
    have he := List.find?_some hfind
    rw [Element.isAbout, Option.any_eq_true] at he
    obtain ⟨found, hfound, -⟩ := he
    rw [Option.bind_some, hfound]
    rfl

/-- A report follows the elements of a block: it says that a summary, a declared parameter or a
return value is missing if no element for it has text, and not otherwise. -/
structure Procedure.FollowsElements (p : Procedure) (es : List Element) : Prop where
  summary : .noSummary ∈ p.shortcomings ↔
    ∀ e ∈ es, e.isKind "summary" = true → e.body = []
  parameter : ∀ name, .noParameter name ∈ p.shortcomings ↔
    (∃ q ∈ p.parameters, q.name = name) ∧ ∀ e ∈ es, e.isAbout name = true → e.body = []
  returns : .noReturn ∈ p.shortcomings ↔
    p.returns.isSome = true ∧ ∀ e ∈ es, e.isKind "returns" = true → e.body = []

/-- **Reports follow the elements exactly where the first one speaks.** Of the summaries, of the
descriptions of a declared return value, and of the elements for each declared parameter, the first
must have text if any has. -/
theorem Procedure.followsElements_iff {p : Procedure} (hp : p.documentation = some raw)
    (hes : Tags.elements? raw = some es) (hinherit : ∀ e ∈ es, e.isKind "inheritdoc" = false) :
    p.FollowsElements es ↔ FirstSpeaks (·.isKind "summary") es ∧
      (∀ q ∈ p.parameters, FirstSpeaks (·.isAbout q.name) es) ∧
      (p.returns.isSome = true → FirstSpeaks (·.isKind "returns") es) := by
  have hreport (x : Shortcoming) :
      x ∈ p.shortcomings ↔ x ∈ DocAudit.shortcomings p (Tags.read raw) := by
    rw [Procedure.shortcomings, hp]
  have hnone := (Tags.inherit_read_eq_none_iff hes).2 hinherit
  have hsummary : .noSummary ∈ p.shortcomings ↔
      (es.find? (·.isKind "summary")).any (!·.body.isEmpty) = false := by
    rw [hreport, mem_shortcomings_iff hnone, Shortcoming.Holds, hasText_summary_read hes]
  have hparameter (name : Text) : .noParameter name ∈ p.shortcomings ↔
      (∃ q ∈ p.parameters, q.name = name) ∧
        (es.find? (·.isAbout name)).any (!·.body.isEmpty) = false := by
    rw [hreport, mem_shortcomings_iff hnone, Shortcoming.Holds, Procedure.mem_undescribed_iff,
      hasText_parameter?_read hes]
  have hreturns : .noReturn ∈ p.shortcomings ↔ p.returns.isSome = true ∧
      (es.find? (·.isKind "returns")).any (!·.body.isEmpty) = false := by
    rw [hreport, mem_shortcomings_iff hnone, Shortcoming.Holds, hasText_returns_read hes]
  constructor
  · rintro ⟨hs, hq, hr⟩
    rw [hsummary, firstSpeaks_iff] at hs
    rw [hreturns, and_congr_right_iff, firstSpeaks_iff] at hr
    refine ⟨hs, fun q hmem => ?_, hr⟩
    have hname := hq q.name
    rw [hparameter, and_congr_right_iff, firstSpeaks_iff] at hname
    exact hname ⟨q, hmem, rfl⟩
  · rintro ⟨hs, hq, hr⟩
    refine ⟨?_, fun name => ?_, ?_⟩
    · rw [hsummary, firstSpeaks_iff]
      exact hs
    · rw [hparameter, and_congr_right_iff, firstSpeaks_iff]
      rintro ⟨q, hmem, rfl⟩
      exact hq q hmem
    · rw [hreturns, and_congr_right_iff, firstSpeaks_iff]
      exact hr

/-- Tags of which some are repeated in another case, or without text. -/
def copyBlock : Text :=
  "<param name=\"target\">New.</param><summary>Copies.</summary><param name=\"Target\"/>" ++
    "<summary/><returns/><returns> </returns>"

/-- A procedure with that documentation that returns something. -/
def documentedCopy : Procedure :=
  { copyItem with returns := some ⟨⟨none, "Item"⟩, none⟩, documentation := some copyBlock }

theorem Procedure.followsElements_documentedCopy :
    ∃ es, Tags.elements? copyBlock = some es ∧ (∀ e ∈ es, e.isKind "inheritdoc" = false) ∧
      documentedCopy.FollowsElements es ∧
      documentedCopy.shortcomings = [.noParameter "Source", .noReturn] := by
  have helements : (Tags.elements? copyBlock).any (fun es =>
      (∀ e ∈ es, e.isKind "inheritdoc" = false) ∧ FirstSpeaks (·.isKind "summary") es ∧
        (∀ q ∈ copyItem.parameters, FirstSpeaks (·.isAbout q.name) es) ∧
        FirstSpeaks (·.isKind "returns") es) = true := by
    decide +kernel
  obtain ⟨es, hes, hall⟩ := (Option.any_eq_true _ _).1 helements
  obtain ⟨hinherit, hsummary, hparameters, hreturns⟩ := of_decide_eq_true hall
  exact ⟨es, hes, hinherit, (Procedure.followsElements_iff (p := documentedCopy) rfl hes hinherit).2
    ⟨hsummary, hparameters, fun _ => hreturns⟩, by decide +kernel⟩

/-- A file with a procedure whose return value is described only the second time. -/
def describedLate : SourceFile where
  path := ⟨"Tools.al"⟩
  lines := ["codeunit 1 Tools", "\x7b", "/// <summary>Counts.</summary>", "/// <returns></returns>",
    "/// <returns>The number.</returns>", "procedure Count(): Integer", "\x7d"]

/-- The block above that procedure. -/
def lateBlock : Text :=
  "<summary>Counts.</summary>\n<returns></returns>\n<returns>The number.</returns>"

/-- The text of a later element does not count when the first has none. -/
theorem Procedure.exists_not_followsElements :
    ∃ o p es, describedLate.object? {} = some o ∧ o.procedures = [p] ∧
      p.documentation = some lateBlock ∧ Tags.elements? lateBlock = some es ∧
      (∀ e ∈ es, e.isKind "inheritdoc" = false) ∧ ¬ p.FollowsElements es := by
  have hreport : ((describedLate.object? {}).map fun o =>
      o.procedures.map fun p => (p.documentation, p.shortcomings)) =
        some [(some lateBlock, [.noReturn])] := by
    decide +kernel
  have helements : (Tags.elements? lateBlock).any (fun es =>
      (∀ e ∈ es, e.isKind "inheritdoc" = false) ∧
        ∃ e ∈ es, e.isKind "returns" = true ∧ e.body ≠ []) = true := by
    decide +kernel
  obtain ⟨o, ho, hprocedures⟩ := Option.map_eq_some_iff.1 hreport
  obtain ⟨p, hp, hfields⟩ := List.map_eq_singleton_iff.1 hprocedures
  obtain ⟨hdocumentation, hshortcomings⟩ := Prod.mk.inj hfields
  obtain ⟨es, hes, hall⟩ := (Option.any_eq_true _ _).1 helements
  obtain ⟨hinherit, e, he, hkind, hbody⟩ := of_decide_eq_true hall
  refine ⟨o, p, es, ho, hp, hdocumentation, hes, hinherit, fun hfollows => ?_⟩
  have hreported : .noReturn ∈ p.shortcomings := by
    rw [hshortcomings]
    exact List.mem_singleton_self _
  exact hbody ((hfollows.returns.1 hreported).2 e he hkind)

end

end DocAudit
