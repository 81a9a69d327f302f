import DocAudit.Proofs.Reading.Ownership
import DocAudit.Proofs.Workspace.Inheritance

/-!
# Inherited documentation asked for on a comment

The place that documentation is inherited from can be asked for on the signature of a procedure, and
also on a comment above it. On a comment the command answers for the next procedure below, while the
documentation of a procedure is what a walk upwards from it finds. The walk passes over comments,
blank lines and attributes only. So the answer is for the owner of the comment exactly if nothing
else stands between the two. The documentation of the object itself, that of a procedure that is not
modelled, and a comment in a body are answered for a procedure they do not belong to.

* `Procedure.Owns`: the lines that belong to a procedure.
* `SourceFile.Preamble`, `exists_mem_commentsAbove_iff`: the comments that a walk finds.
* `Command.procedureFor?_eq_some_iff`: the procedure that is answered for.
* `Command.owns_iff`, `Command.definition_owns_iff`: when it is the owner of the line.
* `Command.not_owns_of_declaration_between`: above another declaration it never is.
* `Command.exists_owns_of_owns`: a line with an owner is answered for an owner.
-/

namespace DocAudit

/-- A line belongs to the signature of a procedure, or to the comments above it. -/
def Procedure.Owns (p : Procedure) (f : SourceFile) (n : Nat) : Prop :=
  p.Spans n ∨ ∃ text, (n, text) ∈ f.commentsAbove p.line

/-! ## Between a comment and its declaration -/

namespace SourceFile

variable {f : SourceFile} {a n : Nat}

/-- A comment, a blank line, or an attribute on one line. -/
def isPreamble (line : Text) : Bool :=
  isStructuredComment line || allBlank line || isAttribute line

theorem isPreamble_eq {line : Text} (ht : commentText? line = none) :
    isPreamble line = (allBlank line || isAttribute line) := by
  rw [isPreamble, ← commentText?_isSome, ht]
  rfl

/-- From line `a` to above line `n` there are only lines that may stand between a comment and its
declaration, and attributes of several lines. -/
inductive Preamble (f : SourceFile) (a : Nat) : Nat → Prop
  | refl : Preamble f a a
  | line {n : Nat} {line : Text} (h : Preamble f a n) (hl : f.line? n = some line)
      (hp : isPreamble line = true) : Preamble f a (n + 1)
  | spread {first last : Nat} {line : Text} (h : Preamble f a first)
      (hl : f.line? last = some line) (hp : isPreamble line = false)
      (ha : f.attributeEndingAt? last = some first) : Preamble f a (last + 1)

namespace Preamble

theorem le (h : f.Preamble a n) : a ≤ n := by
  induction h with
  | refl => exact Nat.le_refl a
  | line _ _ _ ih => exact Nat.le_succ_of_le ih
  | spread _ _ _ ha ih =>
    have hlt := attributeEndingAt?_lt ha
    omega

/-- Up from a line the preamble goes on as the walk does. -/
theorem succ_iff {line : Text} (hl : f.line? n = some line) : f.Preamble a (n + 1) ↔
    a = n + 1 ∨ (isPreamble line = true ∧ f.Preamble a n) ∨
      (isPreamble line = false ∧ ∃ first, f.attributeEndingAt? n = some first ∧
        f.Preamble a first) := by
  constructor
  · intro h
    cases h with
    | refl => exact Or.inl rfl
    | line h hl' hp =>
      obtain rfl := Option.some.inj (hl.symm.trans hl')
      exact Or.inr (Or.inl ⟨hp, h⟩)
    | spread h hl' hp ha =>
      obtain rfl := Option.some.inj (hl.symm.trans hl')
      exact Or.inr (Or.inr ⟨hp, _, ha, h⟩)
  · rintro (rfl | ⟨hp, h⟩ | ⟨hp, first, ha, h⟩)
    · exact refl
    · exact h.line hl hp
    · exact h.spread hl hp ha

end Preamble

theorem ne_of_commentText?_eq_none {line : Text} {i : Nat} (hl : f.line? n = some line)
    (ht : commentText? line = none) (hi : (f.line? i).any isStructuredComment = true) : i ≠ n := by
  rintro rfl
  rw [hl, Option.any_some, ← commentText?_isSome, ht] at hi
  cases hi

/-- **The comments that a walk finds** are those with nothing but a preamble below them. -/
theorem exists_mem_commentsAbove_iff {i : Nat} :
    (∃ text, (i, text) ∈ f.commentsAbove n) ↔
      (f.line? i).any isStructuredComment = true ∧ f.Preamble (i + 1) n := by
  fun_induction commentsAbove f n with
  | case1 =>
    refine iff_of_false (by simp) fun h => ?_
    exact absurd h.2.le (Nat.not_succ_le_zero i)
  | case2 n hl =>
    refine iff_of_false (by simp) fun hboth => ?_
    obtain ⟨hi, h⟩ := hboth
    cases h with
    | refl => simp [hl] at hi
    | line _ hl' => simp [hl] at hl'
    | spread _ hl' => simp [hl] at hl'
  | case3 n line hl text ht ih =>
    have hcomment : isStructuredComment line = true := by
      rw [← commentText?_isSome, ht]
      rfl
    have hp : isPreamble line = true := by simp [isPreamble, hcomment]
    have hself (hi : i = n) : (f.line? i).any isStructuredComment = true := by
      simp [hi, hl, hcomment]
    simp only [List.mem_cons, Prod.mk.injEq, exists_or, ih, Preamble.succ_iff hl, hp, true_and,
      Nat.add_right_cancel_iff, Bool.true_eq_false, false_and, or_false, exists_and_left,
      exists_eq, and_true, and_or_left]
    exact or_congr_left ⟨fun hi => ⟨hself hi, hi⟩, And.right⟩
  | case4 n line hl ht hp ih =>
    have hp' : isPreamble line = true := (isPreamble_eq ht).trans hp
    rw [ih, Preamble.succ_iff hl]
    refine and_congr_right fun hi => ?_
    have hne := ne_of_commentText?_eq_none hl ht hi
    simp [hp', hne]
  | case5 n line hl ht hp first ha ih =>
    have hp' : isPreamble line = false := (isPreamble_eq ht).trans (Bool.eq_false_iff.2 hp)
    rw [ih, Preamble.succ_iff hl]
    refine and_congr_right fun hi => ?_
    have hne := ne_of_commentText?_eq_none hl ht hi
    simp [hp', hne, ha]
  | case6 n line hl ht hp ha =>
    have hp' : isPreamble line = false := (isPreamble_eq ht).trans (Bool.eq_false_iff.2 hp)
    refine iff_of_false (by simp) fun hboth => ?_
    obtain ⟨hi, h⟩ := hboth
    have hne := ne_of_commentText?_eq_none hl ht hi
    rw [Preamble.succ_iff hl] at h
    simp [hp', hne, ha] at h

end SourceFile

namespace Command

variable {f : SourceFile} {s : Settings} {o : SourceObject} {p : Procedure} {n : Nat}

theorem procedureAt?_eq_none_iff (h : f.object? s = some o) :
    o.procedureAt? n = none ↔ ∀ q ∈ o.procedures, ¬ q.Spans n := by
  have horder := SourceFile.inOrder_of_object? h
  simp only [Option.eq_none_iff_forall_ne_some, ne_eq, horder.procedureAt?_eq_some_iff, not_and]

/-- **The procedure that is answered for**: the one whose signature the line belongs to, or else, if
the line is a comment, the first one below. -/
theorem procedureFor?_eq_some_iff (h : f.object? s = some o) :
    procedureFor? f o n = some p ↔
      (p ∈ o.procedures ∧ p.Spans n) ∨
        (∀ q ∈ o.procedures, ¬ q.Spans n) ∧ (f.line? n).any isStructuredComment = true ∧
          o.procedures.find? (fun q => decide (n < q.line)) = some p := by
  have horder := SourceFile.inOrder_of_object? h
  rw [procedureFor?, Option.or_eq_some_iff, horder.procedureAt?_eq_some_iff,
    horder.nextProcedure?_eq, procedureAt?_eq_none_iff h, Option.ite_none_right_eq_some]

theorem procedureFor?_eq_none_iff (h : f.object? s = some o) :
    procedureFor? f o n = none ↔ ∀ q ∈ o.procedures,
      ¬ q.Spans n ∧ ((f.line? n).any isStructuredComment = true → q.line ≤ n) := by
  have horder := SourceFile.inOrder_of_object? h
  rw [procedureFor?, Option.or_eq_none_iff, procedureAt?_eq_none_iff h, horder.nextProcedure?_eq,
    forall₂_and]
  refine and_congr_right fun _ => ?_
  cases (f.line? n).any isStructuredComment <;> simp [List.find?_eq_none]

/-- A line that belongs to some signature belongs to the procedure that is answered for. Any other
line belongs to it exactly if nothing but a preamble stands between the two. -/
theorem owns_iff (h : f.object? s = some o) (hp : procedureFor? f o n = some p) :
    p.Owns f n ↔ (∃ q ∈ o.procedures, q.Spans n) ∨ f.Preamble (n + 1) p.line := by
  rcases (procedureFor?_eq_some_iff h).1 hp with ⟨hmem, hspans⟩ | ⟨hno, hcomment, hfind⟩
  · exact iff_of_true (Or.inl hspans) (Or.inl ⟨p, hmem, hspans⟩)
  · have hp' := hno p (List.mem_of_find?_eq_some hfind)
    have hnone : ¬ ∃ q ∈ o.procedures, q.Spans n := by simpa using hno
    rw [Procedure.Owns, SourceFile.exists_mem_commentsAbove_iff, or_iff_right hp', hcomment,
      or_iff_right hnone]
    simp

/-- A comment above another declaration, be it the object or a procedure that these settings do not
model, does not belong to the procedure. -/
theorem not_owns_of_declaration_between {s' : Settings} {o' : SourceObject} {e : Declaration}
    (h : f.object? s = some o) (h' : f.object? s' = some o')
    (hclear : f.AttributesClear o'.line) (hp : p ∈ o.procedures) (he : e ∈ o'.declarations)
    (hn : n < e.line) (hlt : e.line < p.line) : ¬ p.Owns f n := by
  rintro (hspans | ⟨text, hmem⟩)
  · have hstart := (SourceFile.inOrder_of_object? h).start_line p hp
    have hle := hspans.1
    omega
  · have hbelow := (SourceFile.bars_of_object? h' hclear he).lt_of_mem hlt hmem
    have habove : e.line < n := hbelow
    omega

theorem eq_or_line_lt_of_find? {next : Nat} {q : Procedure} (horder : o.InOrder next)
    (hp : o.procedures.find? (fun r => decide (n < r.line)) = some p) (hq : q ∈ o.procedures)
    (hbelow : n < q.line) : p = q ∨ p.line < q.line := by
  obtain ⟨-, before, after, happ, hbefore⟩ := List.find?_eq_some_iff_append.1 hp
  have hpair := horder.pairwise_line
  rw [happ, List.pairwise_append, List.pairwise_cons] at hpair
  rw [happ, List.mem_append, List.mem_cons] at hq
  rcases hq with hq | rfl | hq
  · have hnot := hbefore q hq
    rw [decide_eq_true hbelow] at hnot
    cases hnot
  · exact Or.inl rfl
  · exact Or.inr (hpair.2.1.1 q hq)

/-- **No owner is missed**: a line that belongs to a procedure at all is answered for one that it
belongs to. -/
theorem exists_owns_of_owns {q : Procedure} (h : f.object? s = some o)
    (hclear : f.AttributesClear o.line) (hq : q ∈ o.procedures) (howns : q.Owns f n) :
    ∃ p, procedureFor? f o n = some p ∧ p.Owns f n := by
  by_cases hspans : ∃ r ∈ o.procedures, r.Spans n
  · obtain ⟨r, hr, hspans⟩ := hspans
    exact ⟨r, (procedureFor?_eq_some_iff h).2 (Or.inl ⟨hr, hspans⟩), Or.inl hspans⟩
  · have hnone : ∀ r ∈ o.procedures, ¬ r.Spans n := fun r hr hs => hspans ⟨r, hr, hs⟩
    obtain ⟨text, hmem⟩ := howns.resolve_left (hnone q hq)
    have hbelow : n < q.line := (SourceFile.of_mem_commentsAbove hmem).1
    have hcomment := (SourceFile.exists_mem_commentsAbove_iff.1 ⟨text, hmem⟩).1
    have hsome : (o.procedures.find? fun r => decide (n < r.line)).isSome = true :=
      List.find?_isSome.2 ⟨q, hq, decide_eq_true hbelow⟩
    obtain ⟨p, hp⟩ := Option.isSome_iff_exists.1 hsome
    refine ⟨p, (procedureFor?_eq_some_iff h).2 (Or.inr ⟨hnone, hcomment, hp⟩), ?_⟩
    rcases eq_or_line_lt_of_find? (SourceFile.inOrder_of_object? h) hp hq hbelow with rfl | hlt
    · exact howns
    · -- Any other procedure that is first below would stand between the line and its owner.
      have hdeclared : Declaration.procedure p ∈ o.declarations :=
        List.mem_cons_of_mem _ (List.mem_map_of_mem (List.mem_of_find?_eq_some hp))
      have hn := List.find?_some hp
      rw [decide_eq_true_eq] at hn
      exact absurd howns (not_owns_of_declaration_between h h hclear hq hdeclared hn hlt)

/-! ## The command -/

variable {d : Disk} {file : Path} {line : Nat} {l : Located}

theorem object?_of_source (hf : l.source d = .ok f) (ho : l.object d line = .ok o) :
    f.object? l.workspace.config.settings = some o := by
  have hanalyze : l.object? d = .ok (f.object? l.workspace.config.settings) := by
    rw [Located.source] at hf
    rw [Located.object?, analyze, hf]
    rfl
  rw [Located.object, hanalyze] at ho
  cases hobject : f.object? l.workspace.config.settings with
  | none =>
    rw [hobject] at ho
    cases ho
  | some o' =>
    rw [hobject] at ho
    cases ho
    rfl

theorem result_definition_of_none (hl : locate d file = .ok l) (hf : l.source d = .ok f)
    (ho : l.object d line = .ok o) (hp : procedureFor? f o (line - 1) = none) :
    (definition d file line).result = .error (.noDeclaration l.relative line) := by
  simp only [definition, hl, hf, ho, hp, bind, Except.bind, Answer.of, Answer.failed]

theorem result_definition_of_some (hl : locate d file = .ok l) (hf : l.source d = .ok f)
    (ho : l.object d line = .ok o) (hp : procedureFor? f o (line - 1) = some p) :
    (definition d file line).result = .ok (if (l.inherited? d o p).isSome then 0 else 1) := by
  simp only [definition, hl, hf, ho, hp, bind, Except.bind, pure, Except.pure, Answer.of]
  cases l.inherited? d o p <;> rfl

/-- **When the command answers for the owner of the line.** It finds no declaration exactly if the
line is on no signature and not a comment above one. Otherwise it ends by whether the procedure
inherits that it answers for. The line belongs to that procedure if it is on a signature, and else
exactly if only comments, blank lines and attributes stand between the two. -/
theorem definition_owns_iff (hl : locate d file = .ok l) (hf : l.source d = .ok f)
    (ho : l.object d line = .ok o) :
    ((definition d file line).result = .error (.noDeclaration l.relative line) ↔
        ∀ q ∈ o.procedures, ¬ q.Spans (line - 1) ∧
          ((f.line? (line - 1)).any isStructuredComment = true → q.line ≤ line - 1)) ∧
      ∀ p, procedureFor? f o (line - 1) = some p →
        (definition d file line).result =
            .ok (if (l.inherited? d o p).isSome then 0 else 1) ∧
          (p.Owns f (line - 1) ↔
            (∃ q ∈ o.procedures, q.Spans (line - 1)) ∨ f.Preamble (line - 1 + 1) p.line) := by
  have hobject := object?_of_source hf ho
  constructor
  · rw [← procedureFor?_eq_none_iff hobject]
    cases hp : procedureFor? f o (line - 1) with
    | none => exact iff_of_true (result_definition_of_none hl hf ho hp) rfl
    | some p => simp [result_definition_of_some hl hf ho hp]
  · exact fun p hp => ⟨result_definition_of_some hl hf ho hp, owns_iff hobject hp⟩

/-- A workspace whose settings model tests only, with comments above the object, above a procedure
that is not modelled, in its body, and above a test. -/
def onlyTests : Disk where
  entries := [([".aldoc.toml"], .file "procedure_types = [\"Test\"]".toUTF8),
    (["Tools.al"], .file ("/// Tools.\ncodeunit 1 Tools\n\x7b\n/// Helps.\nprocedure Help()\n" ++
      "begin\n/// Nothing.\nend;\n/// Runs.\n[Test]\nprocedure Run()\n\x7d").toUTF8)]

/-- The file in its workspace. -/
def testsFile : Located where
  workspace :=
    { root := ⟨"/"⟩
      config := { settings := { procedureTypes := [.ofCategory .test] } } }
  relative := ⟨"Tools.al"⟩

/-- The lines of the file. -/
def testsSource : SourceFile where
  path := ⟨"Tools.al"⟩
  lines := ["/// Tools.", "codeunit 1 Tools", "\x7b", "/// Helps.", "procedure Help()", "begin",
    "/// Nothing.", "end;", "/// Runs.", "[Test]", "procedure Run()", "\x7d"]

/-- The test. -/
def testRun : Procedure where
  access := .everywhere
  kind := .procedure
  name := "Run"
  declaration := "procedure Run()"
  line := 10
  range := ⟨⟨10, 0⟩, ⟨10, 15⟩⟩
  category := .test
  isTry := false
  obsolete := none
  parameters := []
  returns := none
  documentation := some "Runs."

/-- The object. -/
def testsObject : SourceObject where
  keyword := "codeunit"
  number := some 1
  name := "Tools"
  relation := none
  file := ⟨"Tools.al"⟩
  line := 1
  access := .everywhere
  obsolete := none
  documentation := some "Tools."
  procedures := [testRun]

theorem locate_onlyTests : locate onlyTests ⟨"/Tools.al"⟩ = .ok testsFile := by
  have hnames : onlyTests.locate? ⟨"/Tools.al"⟩ = some [("Tools.al" : Text)] := rfl
  have hroot : findRoot onlyTests (Names.path []) = .ok ⟨"/"⟩ := rfl
  have hload : Workspace.load onlyTests ⟨"/"⟩ = .ok testsFile.workspace := by decide +kernel
  exact locate_of_load hnames hroot hload

theorem source_onlyTests : testsFile.source onlyTests = .ok testsSource := by decide +kernel

theorem object_onlyTests (line : Nat) : testsFile.object onlyTests line = .ok testsObject := by
  have hobject : testsFile.object? onlyTests = .ok (some testsObject) := by decide +kernel
  rw [Located.object, hobject]
  rfl

theorem commentsAbove_testRun :
    testsSource.commentsAbove testRun.line = [(8, ("Runs." : Text))] := by
  decide +kernel

theorem result_definition_onlyTests {line : Nat}
    (hp : procedureFor? testsSource testsObject (line - 1) = some testRun) :
    (definition onlyTests ⟨"/Tools.al"⟩ line).result = .ok 1 := by
  rw [result_definition_of_some locate_onlyTests source_onlyTests (object_onlyTests line) hp]
  rfl

/-- The comment above the attribute of the test is answered for the test. -/
theorem definition_owns_iff_onlyTests :
    procedureFor? testsSource testsObject 8 = some testRun ∧ testRun.Owns testsSource 8 ∧
      (definition onlyTests ⟨"/Tools.al"⟩ 9).result = .ok 1 := by
  have hp : procedureFor? testsSource testsObject (9 - 1) = some testRun := by decide +kernel
  obtain ⟨-, hsome⟩ :=
    definition_owns_iff locate_onlyTests source_onlyTests (object_onlyTests 9)
  obtain ⟨hresult, howns⟩ := hsome testRun hp
  have hattribute : SourceFile.isPreamble "[Test]" = true := by decide +kernel
  exact ⟨hp, howns.2 (Or.inr (.line .refl rfl hattribute)), hresult⟩

/-- The comments above the object, above the procedure that is not modelled and in its body are
answered for the test as well. -/
theorem exists_not_owns :
    locate onlyTests ⟨"/Tools.al"⟩ = .ok testsFile ∧
      testsFile.source onlyTests = .ok testsSource ∧
      ∀ line ∈ ([1, 4, 7] : List Nat), testsFile.object onlyTests line = .ok testsObject ∧
        procedureFor? testsSource testsObject (line - 1) = some testRun ∧
        (definition onlyTests ⟨"/Tools.al"⟩ line).result = .ok 1 ∧
        ¬ testRun.Owns testsSource (line - 1) := by
  have hp : ∀ line ∈ ([1, 4, 7] : List Nat),
      procedureFor? testsSource testsObject (line - 1) = some testRun := by decide +kernel
  have hnot : ∀ line ∈ ([1, 4, 7] : List Nat), ¬ testRun.Owns testsSource (line - 1) := by
    intro line hline
    have hbounds : ∀ line ∈ ([1, 4, 7] : List Nat), line - 1 < 8 := by decide
    have hlt := hbounds line hline
    rintro (hspans | ⟨text, hmem⟩)
    · have hstart : 10 ≤ line - 1 := hspans.1
      omega
    · rw [commentsAbove_testRun, List.mem_singleton, Prod.mk.injEq] at hmem
      omega
  refine ⟨locate_onlyTests, source_onlyTests, fun line hline => ?_⟩
  have hresult := result_definition_onlyTests (hp line hline)
  exact ⟨object_onlyTests line, hp line hline, hresult, hnot line hline⟩

end Command

end DocAudit
