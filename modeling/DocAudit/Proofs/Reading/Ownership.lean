import DocAudit.Proofs.Documentation.Above
import DocAudit.Proofs.Reading.Declarations
import DocAudit.Proofs.Reading.Order
import DocAudit.Proofs.Source.Code

/-!
# Whose comments they are

The documentation of a declaration is what a walk upwards from its line finds. The walk knows
nothing of the other declarations, and yet it stops below the nearest one: a header is no line that
a walk passes over, unless an attribute of several lines runs over it. So a comment documents one
declaration at most, and a declaration without comments takes over none.

* `Declaration.line`: the line of an object or a procedure.
* `SourceFile.Bars`: a line that no walk passes; `Bars.lt_of_mem`: none does.
* `SourceFile.AttributesClear`: attributes run over no header.
* `SourceFile.object?_ownComments`: the declarations of an object share no comment.
-/

namespace DocAudit

/-- The line a declaration stands on. -/
def Declaration.line : Declaration → Nat
  | .object o => o.line
  | .procedure p => p.line

theorem SourceObject.InOrder.pairwise_declarations {o : SourceObject} {next : Nat}
    (h : o.InOrder next) : o.declarations.Pairwise fun d e => d.line < e.line := by
  rw [declarations, List.pairwise_cons, List.pairwise_map]
  refine ⟨fun d hd => ?_, h.pairwise_line⟩
  obtain ⟨p, hp, rfl⟩ := List.mem_map.1 hd
  exact h.below_header p hp

namespace SourceFile

variable {f : SourceFile} {s : Settings}

/-! ## A line that no walk passes -/

/-- The line has code that opens no attribute, and no attribute from further up runs over it. -/
structure Bars (f : SourceFile) (a : Nat) : Prop where
  plain : ∃ line, f.line? a = some line ∧ hasPlainCode line = true
  outside : ∀ first whole last, f.attributeAt? first = some (whole, last) → first < a → last < a

theorem Bars.hasPlainCode {a : Nat} {line : Text} (ha : f.Bars a) (hl : f.line? a = some line) :
    hasPlainCode line = true := by
  obtain ⟨line', hl', hplain⟩ := ha.plain
  rw [hl] at hl'
  cases hl'
  exact hplain

/-- **A walk from below stays below.** -/
theorem Bars.lt_of_mem {a n : Nat} (ha : f.Bars a) (hn : a < n) {c : Nat × Text}
    (hc : c ∈ f.commentsAbove n) : a < c.1 := by
  -- By the cases of the walk: no line above, a comment, a line passed, an attribute, the stop.
  fun_induction commentsAbove f n with
  | case1 => cases hc
  | case2 => cases hc
  | case3 n line hl text ht ih =>
    have hne : a ≠ n := by
      rintro rfl
      have hcomment := isStructuredComment_eq_false (ha.hasPlainCode hl)
      rw [commentText?_eq_none hcomment] at ht
      cases ht
    rcases List.mem_cons.1 hc with rfl | hc
    · show a < n
      omega
    · exact ih (by omega) hc
  | case4 n line hl _ hp ih =>
    have hne : a ≠ n := by
      rintro rfl
      rw [allBlank_eq_false (ha.hasPlainCode hl), isAttribute_eq_false (ha.hasPlainCode hl)] at hp
      cases hp
    exact ih (by omega) hc
  | case5 n _ _ _ _ first hending ih =>
    -- The walk jumps from the last line of an attribute to its first, which is not `a` either.
    obtain ⟨hlt, ⟨whole, hat⟩, -⟩ := attributeEndingAt?_eq_some_iff.1 hending
    have hne : a ≠ first := by
      rintro rfl
      obtain ⟨line, hl, hplain⟩ := ha.plain
      have hopen := (attributeAt?_le hat).2.2.2
      rw [hl, Option.any_some, opensAttribute_eq_false_of_hasPlainCode hplain] at hopen
      cases hopen
    have houtside := ha.outside first whole n hat
    exact ih (by omega) hc
  | case6 => cases hc

/-! ## Declarations -/

/-- No attribute of several lines runs over the line `header` or over one that starts a
procedure. -/
def AttributesClear (f : SourceFile) (header : Nat) : Prop :=
  ∀ first whole last, f.attributeAt? first = some (whole, last) → ∀ i, first < i → i ≤ last →
    i ≠ header ∧ (f.line? i).any startsProcedure = false

/-- Only the attributes that open on a line of the file matter. -/
theorem attributesClear_iff {header : Nat} :
    f.AttributesClear header ↔ ∀ first < f.lineCount, ∀ found ∈ f.attributeAt? first,
      ∀ i ≤ found.2, first < i → i ≠ header ∧ (f.line? i).any startsProcedure = false := by
  constructor
  · exact fun h first _ found hat i hle hlt => h first found.1 found.2 hat i hlt hle
  · intro h first whole last hat i hlt hle
    have hfirst := attributeAt?_le hat
    exact h first (by omega) (whole, last) hat i hle hlt

instance (f : SourceFile) (header : Nat) : Decidable (f.AttributesClear header) :=
  decidable_of_iff _ attributesClear_iff.symm

theorem documentation_of_object? {o : SourceObject} (h : f.object? s = some o) {d : Declaration}
    (hd : d ∈ o.declarations) : d.documentation = f.documentationAbove d.line := by
  have hread := readFrom_of_object? h
  rcases List.mem_cons.1 hd with rfl | hd
  · exact hread.documentation
  · obtain ⟨p, hp, rfl⟩ := List.mem_map.1 hd
    obtain ⟨header, hrepeats⟩ := exists_repeats_of_readFrom (hread.procedures p hp)
    exact hrepeats.documentation

/-- No walk passes a declaration. -/
theorem bars_of_object? {o : SourceObject} (h : f.object? s = some o)
    (hclear : f.AttributesClear o.line) {d : Declaration} (hd : d ∈ o.declarations) :
    f.Bars d.line := by
  have hread := readFrom_of_object? h
  rcases List.mem_cons.1 hd with rfl | hd
  · obtain ⟨line, hl, hheader⟩ := hread.header
    refine ⟨⟨line, hl, hasPlainCode_of_objectHeader (by rw [hheader]; rfl)⟩, ?_⟩
    intro first whole last hat hlt
    by_contra hle
    exact (hclear first whole last hat _ hlt (Nat.not_lt.1 hle)).1 rfl
  · obtain ⟨p, hp, rfl⟩ := List.mem_map.1 hd
    obtain ⟨line, header, whole, extra, traits, hl, hh, -⟩ := hread.procedures p hp
    have hstart := (headerAt?_eq_some_iff.1 hh).1
    refine ⟨⟨line, hl, hasPlainCode_of_startsProcedure hstart⟩, ?_⟩
    intro first whole last hat hlt
    by_contra hle
    have hno := (hclear first whole last hat _ hlt (Nat.not_lt.1 hle)).2
    rw [Declaration.line, hl, Option.any_some, hstart] at hno
    cases hno

theorem documentationAbove_eq_none {a n : Nat} (ha : f.Bars a) (hn : a < n)
    (hno : ∀ i, a < i → i < n → (f.line? i).any isStructuredComment = false) :
    f.documentationAbove n = none := by
  have hnil : f.commentsAbove n = [] := by
    refine List.eq_nil_iff_forall_not_mem.2 fun c hc => ?_
    obtain ⟨hlt, htext⟩ := of_mem_commentsAbove hc
    obtain ⟨line, hl, htext⟩ := Option.bind_eq_some_iff.1 htext
    have hcomment := hno c.1 (ha.lt_of_mem hn hc) hlt
    rw [hl, Option.any_some, ← commentText?_isSome, htext] at hcomment
    cases hcomment
  rw [documentationAbove, hnil]

/-- **A comment documents one declaration.** Let no attribute of several lines run over the header
of the object or over the start of a procedure. Then every declaration of the object is documented
by the comments above its line, and for any two of them the comments of the lower one stand between
the two: they have no comment in common, and without a comment between them the lower one has no
documentation. -/
theorem object?_ownComments {o : SourceObject} (h : f.object? s = some o)
    (hclear : f.AttributesClear o.line) :
    (∀ d ∈ o.declarations, d.documentation = f.documentationAbove d.line) ∧
      o.declarations.Pairwise fun d e => d.line < e.line ∧
        (∀ c ∈ f.commentsAbove e.line, d.line < c.1 ∧ c.1 < e.line) ∧
        (∀ c ∈ f.commentsAbove d.line, ∀ c' ∈ f.commentsAbove e.line, c.1 ≠ c'.1) ∧
        ((∀ i, d.line < i → i < e.line → (f.line? i).any isStructuredComment = false) →
          e.documentation = none) := by
  refine ⟨fun d hd => documentation_of_object? h hd, ?_⟩
  refine (inOrder_of_object? h).pairwise_declarations.imp_of_mem fun {d e} hd he hlt => ?_
  have hbars := bars_of_object? h hclear hd
  have hbetween : ∀ c ∈ f.commentsAbove e.line, d.line < c.1 ∧ c.1 < e.line := fun c hc =>
    ⟨hbars.lt_of_mem hlt hc, (of_mem_commentsAbove hc).1⟩
  refine ⟨hlt, hbetween, fun c hc c' hc' => ?_, fun hno => ?_⟩
  · have habove := (of_mem_commentsAbove hc).1
    have hbelow := (hbetween c' hc').1
    omega
  · rw [documentation_of_object? h he]
    exact documentationAbove_eq_none hbars hlt hno

/-- A file with two attributes of two lines, where the last procedure has no comments. -/
def closingUndocumented : SourceFile where
  path := ⟨"Tools.al"⟩
  lines := ["/// Tools.", "codeunit 1 Tools", "\x7b", "/// Opens.", "[Obsolete('Use Close.',",
    "  '24.0')]", "", "procedure Open()", "[Scope('OnPrem',", "  'Cloud')]", "procedure Close()",
    "\x7d"]

theorem object?_ownComments_closingUndocumented :
    ∃ o, closingUndocumented.object? {} = some o ∧
      closingUndocumented.AttributesClear o.line ∧
      o.declarations.map (fun d => (d.line, d.documentation)) =
        [(1, some ("Tools." : Text)), (7, some "Opens."), (10, none)] ∧
      o.declarations.Pairwise fun d e => ∀ c ∈ closingUndocumented.commentsAbove d.line,
        ∀ c' ∈ closingUndocumented.commentsAbove e.line, c.1 ≠ c'.1 := by
  have hsome : ((closingUndocumented.object? {}).map fun o =>
      (o.line, o.declarations.map fun d => (d.line, d.documentation))) =
        some (1, [(1, some ("Tools." : Text)), (7, some "Opens."), (10, none)]) := by
    decide +kernel
  obtain ⟨o, ho, heq⟩ := Option.map_eq_some_iff.1 hsome
  obtain ⟨hline, hdeclarations⟩ := Prod.mk.inj heq
  have hclear : closingUndocumented.AttributesClear o.line := by
    rw [hline]
    decide +kernel
  exact ⟨o, ho, hclear, hdeclarations,
    (object?_ownComments ho hclear).2.imp fun hpair => hpair.2.2.1⟩

end SourceFile

end DocAudit
