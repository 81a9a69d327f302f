import DocAudit.Proofs.Finding.Evaluation
import DocAudit.Proofs.Reading.Declarations
import DocAudit.Proofs.Skeleton.Lines
import DocAudit.Proofs.Skeleton.Place
import DocAudit.Proofs.Skeleton.Template
import DocAudit.Proofs.Source.Subset

/-!
# Skeletons satisfy the check

A declaration with its skeleton above it has nothing missing and nothing too much. The lines of a
skeleton are comments, they are read as the tags the skeleton was made with, and these are the tags
that the check asks for.

* `shortcomings_skeletonLines`: the tags of a skeleton satisfy the check of its procedure.
* `SourceFile.noFinding_of_documentationAbove`: a declaration that its own skeleton documents has no
  finding.
* `SourceFile.skeletonAt?_noFinding`: with a skeleton above it, a declaration has no finding.
-/

namespace DocAudit

open Markup

/-! ## The check -/

theorem unquote_eq_self {n : Text} (ht : trim n = n)
    (hq : ¬ (n.head? = some '"' ∧ n.getLast? = some '"')) : unquote n = n := by
  have hbody : quotedBody n = none := by
    rw [quotedBody.eq_def]
    split
    · next rest =>
      split
      · next hlast =>
        refine absurd ⟨rfl, ?_⟩ hq
        rw [List.getLast?_cons, hlast]
        rfl
      · rfl
    · rfl
  rw [unquote, ht, hbody]

section Parameters

variable (number : Nat) {ps : List ParameterClause} (hi : ∀ p ∈ ps, p.IsInline)

theorem isEmpty_parameterFragments :
    ∀ t ∈ (parameterFragments number ps hi).map Fragment.asParameter, t.text.isEmpty = false := by
  induction ps generalizing number with
  | nil =>
    intro t ht
    cases ht
  | cons p ps ih =>
    intro t ht
    rw [parameterFragments, List.map_cons] at ht
    rcases List.mem_cons.1 ht with rfl | ht
    · rw [Fragment.asParameter_text, text_parameterFragment]
      exact isEmpty_tidy_of_mem (mem_placeholderText _ _)
    · exact ih _ _ t ht

theorem names_parameterFragments :
    ((parameterFragments number ps hi).map Fragment.asParameter).map (·.name) =
      ps.map (unquote ·.name) := by
  induction ps generalizing number with
  | nil => rfl
  | cons p ps ih =>
    rw [parameterFragments, List.map_cons, List.map_cons, List.map_cons, ih]
    rfl

end Parameters

/-- **The tags of a skeleton satisfy the check of its procedure.** -/
theorem shortcomings_skeletonLines {h : ProcedureHeader} (hi : h.IsInline)
    (hn : ∀ q ∈ h.parameters, unquote q.name = q.name) {p : Procedure}
    (hp : p.parameters.map (·.name) = h.parameters.map (·.name))
    (hr : p.returns.isSome = h.returns.isSome) :
    shortcomings p (Tags.read (joinLines h.skeletonLines)) = [] := by
  rw [h.read_skeletonLines hi]
  have hnames : ((parameterFragments 2 h.parameters hi.parameters).map Fragment.asParameter).map
      (·.name) = h.parameters.map (·.name) :=
    (names_parameterFragments 2 hi.parameters).trans (List.map_congr_left hn)
  have htexts := isEmpty_parameterFragments 2 hi.parameters
  generalize (parameterFragments 2 h.parameters hi.parameters).map Fragment.asParameter = ts
    at hnames htexts
  rw [← hnames] at hp
  have hsummary := hasText_summaryFragment (h.name ++ ".") (hi.name.append inline_period)
  -- Every declared parameter has a tag with text.
  have hmissing : p.parameters.filter (fun q =>
      !((ts.find? fun t => sameWord t.name q.name).any (!·.text.isEmpty))) = [] := by
    apply List.filter_eq_nil_iff.2
    intro q hq
    have hmem : q.name ∈ ts.map (·.name) := hp ▸ List.mem_map_of_mem hq
    obtain ⟨t, ht, hname⟩ := List.mem_map.1 hmem
    obtain ⟨t', ht'⟩ := Option.isSome_iff_exists.1
      (List.find?_isSome (p := fun t => sameWord t.name q.name) |>.2
        ⟨t, ht, by rw [hname, sameWord_refl]⟩)
    rw [ht', Option.any_some, htexts t' (List.mem_of_find?_eq_some ht')]
    decide
  -- Every tag names a declared parameter.
  have hextra : ts.filter (fun t => !p.parameters.any (sameWord ·.name t.name)) = [] := by
    apply List.filter_eq_nil_iff.2
    intro t ht
    have hmem : t.name ∈ p.parameters.map (·.name) := hp ▸ List.mem_map_of_mem ht
    obtain ⟨q, hq, hname⟩ := List.mem_map.1 hmem
    rw [List.any_eq_true.2 ⟨q, hq, by rw [hname, sameWord_refl]⟩]
    decide
  obtain ⟨hsome, htext⟩ :=
    head?_returnFragments (2 + h.parameters.length) h.returns hi.returns
  generalize ((returnFragments _ h.returns hi.returns).map Fragment.asTag).head? = tag
    at hsome htext
  rw [← hr] at hsome htext
  have hnone : (p.returns.isNone && tag.isSome) = false := by
    rw [hsome, ← Option.not_isSome, Bool.not_and_self]
  rw [shortcomings, hsummary, htext, Bool.and_not_self, hnone]
  simp only [Tags.parameter?, hmissing, hextra]
  rfl

theorem Header.hasText_summary {h : Header} (hi : h.IsInline) :
    hasText (Tags.read (joinLines h.skeletonLines)).summary = true := by
  cases h with
  | object h =>
    show hasText (Tags.read (joinLines h.skeletonLines)).summary = true
    rw [h.read_skeletonLines hi]
    exact hasText_summaryFragment _ _
  | procedure h =>
    show hasText (Tags.read (joinLines h.skeletonLines)).summary = true
    rw [h.read_skeletonLines hi]
    exact hasText_summaryFragment _ _

/-! ## Names and types -/

/-- The names and types that a header holds. -/
def Header.words : Header → List Text
  | .object h => [h.name]
  | .procedure h =>
    h.name :: ((h.parameters.flatMap fun p => [p.name, p.dataType]) ++
      h.returns.toList.flatMap fun r => r.name.toList ++ [r.dataType])

/-- The names of the parameters of a header. -/
def Header.parameterNames : Header → List Text
  | .object _ => []
  | .procedure h => h.parameters.map (·.name)

theorem inline_of_allowed {t : Text} (h : ∀ c ∈ t, isAllowed c = true ∧ c ≠ '\t' ∧ c ≠ '\r')
    (hn : '\n' ∉ t) : Inline t := by
  intro c hc
  obtain ⟨ha, htab, hreturn⟩ := h c hc
  refine ⟨ha, ?_⟩
  intro hs
  rw [isSpace, Bool.or_eq_true, Bool.or_eq_true, Bool.or_eq_true] at hs
  rcases hs with ((hs | hs) | hs) | hs
  · exact of_decide_eq_true hs
  · exact absurd (of_decide_eq_true hs) htab
  · exact absurd (of_decide_eq_true hs ▸ hc) hn
  · exact absurd (of_decide_eq_true hs) hreturn

theorem Header.read?_cases {line : Text} {h : Header} (hh : Header.read? line = some h) :
    (∃ p, ProcedureHeader.read? line = some p ∧ h = .procedure p) ∨
      ∃ o, ObjectHeader.read? line = some o ∧ h = .object o := by
  rcases Option.or_eq_some_iff.1 hh with hp | ⟨-, ho⟩
  · obtain ⟨p, hread, rfl⟩ := Option.map_eq_some_iff.1 hp
    exact Or.inl ⟨p, hread, rfl⟩
  · obtain ⟨o, hread, rfl⟩ := Option.map_eq_some_iff.1 ho
    exact Or.inr ⟨o, hread, rfl⟩

theorem Header.isInline_of_words {line : Text} {h : Header} (hh : Header.read? line = some h)
    (hline : '\n' ∉ line)
    (hwords : ∀ t ∈ h.words, ∀ c ∈ t, isAllowed c = true ∧ c ≠ '\t' ∧ c ≠ '\r') : h.IsInline := by
  have hinline {t : Text} (ht : t ∈ h.words) (hsub : t ⊆ line) : Inline t :=
    inline_of_allowed (hwords t ht) fun hc => hline (hsub hc)
  rcases Header.read?_cases hh with ⟨p, hp, rfl⟩ | ⟨o, ho, rfl⟩
  · obtain ⟨hname, hparameters, hreturns⟩ := ProcedureHeader.read?_subset hp
    have hparameter : ∀ q ∈ p.parameters, ∀ t ∈ [q.name, q.dataType],
        t ∈ (Header.procedure p).words := fun q hq t ht =>
      List.mem_cons_of_mem _ (List.mem_append_left _ (List.mem_flatMap.2 ⟨q, hq, ht⟩))
    have hreturn : ∀ r, p.returns = some r → ∀ t ∈ r.name.toList ++ [r.dataType],
        t ∈ (Header.procedure p).words := fun r hr t ht =>
      List.mem_cons_of_mem _ (List.mem_append_right _
        (List.mem_flatMap.2 ⟨r, Option.mem_toList.2 hr, ht⟩))
    refine ⟨hinline List.mem_cons_self hname, fun q hq => ⟨?_, ?_⟩,
      fun r hr => ⟨fun n hn => ?_, ?_⟩⟩
    · exact hinline (hparameter q hq _ (by simp)) (hparameters q hq).1
    · exact hinline (hparameter q hq _ (by simp)) (hparameters q hq).2
    · exact hinline (hreturn r hr _ (by simp [hn])) ((hreturns r hr).1 n hn)
    · exact hinline (hreturn r hr _ (by simp)) (hreturns r hr).2
  · obtain ⟨hname, hkeyword⟩ := ObjectHeader.read?_subset ho
    exact ObjectHeader.inline_sentence (hinline List.mem_cons_self hname) hkeyword

/-! ## Findings -/

namespace SourceFile

/-- The header that the skeleton asked for on line `n` is for. -/
def headerBelow? (f : SourceFile) (n : Nat) : Option Header :=
  (f.logicalLine? (f.documentedLine n)).bind Header.read?

variable {f : SourceFile} {s : Settings} {o : SourceObject}

/-- A procedure is read from the logical line that its skeleton is made from. -/
theorem header_of_readFrom {p : Procedure} (hp : p.ReadFrom f) {header : Header}
    (hheader : (f.logicalLine? p.line).bind Header.read? = some header) :
    ∃ h whole extra traits, header = .procedure h ∧
      p = f.procedure p.line (p.line + extra) whole h traits := by
  obtain ⟨line, h, whole, extra, traits, hl, hh, heq⟩ := hp
  obtain ⟨hstarts, hsignature, hread⟩ := headerAt?_eq_some_iff.1 hh
  have hwhole : f.logicalLine? p.line = some whole := by
    rw [logicalLine?, hl, Option.map_some, if_pos hstarts, signatureAt, linesFrom_eq_cons hl,
      hsignature]
  rw [hwhole, Option.bind_some, Header.read?, hread, Option.map_some, Option.some_or,
    Option.some.injEq] at hheader
  exact ⟨h, whole, extra, traits, hheader.symm, heq⟩

theorem shortcomings_of_documentationAbove {p : Procedure} {header : Header} (hi : header.IsInline)
    (hnames : ∀ name ∈ header.parameterNames, unquote name = name)
    (hheader : (f.logicalLine? p.line).bind Header.read? = some header)
    (hdoc : f.documentationAbove p.line = some (joinLines header.skeletonLines))
    (hp : p.ReadFrom f) : p.shortcomings = [] := by
  obtain ⟨h, whole, extra, traits, rfl, heq⟩ := header_of_readFrom hp hheader
  have hdocumentation : p.documentation = some (joinLines h.skeletonLines) := by
    rw [heq]
    exact hdoc
  rw [Procedure.shortcomings, hdocumentation]
  refine shortcomings_skeletonLines hi (fun q hq => hnames _ (List.mem_map_of_mem hq)) ?_ ?_
  · have hparameters : p.parameters =
        h.parameters.map (ParameterClause.document p.documentation.tags) := by
      rw [heq]
      rfl
    rw [hparameters, List.map_map]
    rfl
  · have hreturns : p.returns = h.returns.map (ReturnClause.document p.documentation.tags) := by
      rw [heq]
      rfl
    rw [hreturns, Option.isSome_map]

/-- An object that its own skeleton documents lacks nothing: only a summary is asked of it. -/
theorem headerShortcomings_of_documentation {header : Header} (hi : header.IsInline)
    (h : o.documentation = some (joinLines header.skeletonLines)) : o.headerShortcomings = [] := by
  rw [SourceObject.headerShortcomings, h]
  simp only [Header.hasText_summary hi, Bool.or_true, if_true]

/-- **A declaration that its own skeleton documents has no finding.** -/
theorem noFinding_of_documentationAbove {n : Nat} {header : Header} (hi : header.IsInline)
    (hnames : ∀ name ∈ header.parameterNames, unquote name = name)
    (hheader : (f.logicalLine? n).bind Header.read? = some header)
    (hdoc : f.documentationAbove n = some (joinLines header.skeletonLines))
    (ho : f.object? s = some o) :
    ∀ finding ∈ o.evaluate s, finding.range.start.line ≠ n := by
  have hread := readFrom_of_object? ho
  intro finding hfinding hline
  rw [SourceObject.evaluate_eq] at hfinding
  obtain ⟨d, hd, hfound⟩ := List.mem_filterMap.1 hfinding
  obtain ⟨-, hne, rfl⟩ := SourceObject.finding?_eq_some_iff.1 hfound
  refine hne ?_
  rcases List.mem_cons.1 hd with rfl | hd
  · have hline : o.line = n := hline
    refine headerShortcomings_of_documentation hi ?_
    rw [hread.documentation, hline, hdoc]
  · -- A procedure is read from the same signature as its skeleton.
    obtain ⟨p, hp, rfl⟩ := List.mem_map.1 hd
    have hline : p.range.start.line = n := hline
    rw [(hread.procedures p hp).start_line] at hline
    subst hline
    exact shortcomings_of_documentationAbove hi hnames hheader hdoc (hread.procedures p hp)

/-! ## Skeletons in a file -/

/-- What the skeleton at a marker is made of. -/
theorem skeletonAt?_eq_some {cursor : Nat} {snippet : Snippet}
    (h : f.skeletonAt? cursor = some snippet) :
    ∃ marker header, f.line? cursor = some marker ∧ trim marker = commentMarker ∧
      f.headerBelow? cursor = some header ∧
      snippet.text = joinLines (indented (indentOf marker) (asComments header.skeletonLines)) := by
  simp only [skeletonAt?, Option.bind_eq_bind, Option.bind_eq_some_iff] at h
  obtain ⟨marker, hm, h⟩ := h
  split at h
  · next hcursor =>
    obtain ⟨next, -, h⟩ := Option.bind_eq_some_iff.1 h
    split at h
    · obtain ⟨whole, hw, h⟩ := Option.bind_eq_some_iff.1 h
      obtain ⟨header, hh, h⟩ := Option.bind_eq_some_iff.1 h
      cases h
      refine ⟨marker, header, hm, ?_, ?_, by rw [header.skeleton_eq]⟩
      · rw [isCursorLine, hm, Option.any_some, Bool.and_eq_true, beq_iff_eq] at hcursor
        exact hcursor.1
      · rw [headerBelow?, hw, Option.bind_some, hh]
    · cases h
  · cases h

theorem lineFeed_not_mem_logicalLine {path : Path} {text whole : Text} {n : Nat}
    (h : (ofText path text).logicalLine? n = some whole) : '\n' ∉ whole := by
  intro hc
  rcases logicalLine?_chars h hc with hc | ⟨line, hl, hc⟩
  · cases hc
  · exact not_mem_of_mem_lines hl hc

/-- Where a marker was all the documentation there was, the skeleton in its place documents the
declaration, and the declaration reads as before. -/
theorem documentationAbove_skeleton {cursor : Nat} {marker : Text} {header : Header}
    (hm : f.line? cursor = some marker) (hbare : trim marker = commentMarker)
    (hi : header.IsInline) (hdoc : f.documentationAbove (f.documentedLine cursor) = some [])
    {ls : List Text} (hls : ls = header.skeletonLines.map (asComment (indentOf marker))) :
    (f.replaceLine cursor ls).documentationAbove (f.documentedLine cursor + ls.length - 1) =
        some (joinLines header.skeletonLines) ∧
      (f.replaceLine cursor ls).logicalLine? (f.documentedLine cursor + ls.length - 1) =
        f.logicalLine? (f.documentedLine cursor) := by
  have hn := line?_lt hm
  obtain ⟨hle, hcode⟩ := f.declarationFrom_code (cursor + 1)
  rw [← documentedLine] at hle hcode
  obtain ⟨j, hj⟩ := Nat.exists_eq_add_of_le hle
  have hshift : f.documentedLine cursor + ls.length - 1 = cursor + ls.length + j := by omega
  have htexts : ls.map commentText? = header.skeletonLines.map some := by
    rw [hls]
    exact map_commentText?_asComment (Header.isTemplateLine hi) (allBlank_indentOf marker)
  rw [hshift, hj]
  rw [hj] at hdoc
  refine ⟨?_, logicalLine?_replaceLine hn j⟩
  exact documentationAbove_replaceLine hm hbare htexts header.skeletonLines_ne_nil j
    (fun i h => hcode (cursor + 1 + i) (by omega) (by omega)) hdoc

/-- **A skeleton satisfies the check of its declaration.** The marker is the only comment captured
above the declaration, and the names and types of the header hold no character that markup cannot
hold or would read as another; then, with the skeleton in place of the marker, no finding is about
the declaration, wherever it has moved. -/
theorem skeletonAt?_noFinding {path : Path} {text : Text} {cursor : Nat} {snippet : Snippet}
    {header : Header} {s : Settings} {o : SourceObject}
    (hsnippet : (ofText path text).skeletonAt? cursor = some snippet)
    (hheader : (ofText path text).headerBelow? cursor = some header)
    (hraw : Documentation.raw ((ofText path text).documentationAbove
      ((ofText path text).documentedLine cursor)) = [])
    (hcaptured : cursor ∈ ((ofText path text).commentsAbove
      ((ofText path text).documentedLine cursor)).map (·.1))
    (hwords : ∀ t ∈ header.words, ∀ c ∈ t, isAllowed c = true ∧ c ≠ '\t' ∧ c ≠ '\r')
    (hnames : ∀ name ∈ header.parameterNames,
      trim name = name ∧ ¬ (name.head? = some '"' ∧ name.getLast? = some '"'))
    (ho : ((ofText path text).replaceLine cursor (DocAudit.lines snippet.text)).object? s =
      some o) :
    ∀ finding ∈ o.evaluate s, finding.range.start.line ≠
      (ofText path text).documentedLine cursor + (DocAudit.lines snippet.text).length - 1 := by
  obtain ⟨marker, header', hm, hbare, hheader', htext⟩ := skeletonAt?_eq_some hsnippet
  obtain rfl : header' = header := Option.some.inj (hheader'.symm.trans hheader)
  obtain ⟨whole, hwhole, hread⟩ := Option.bind_eq_some_iff.1 hheader
  have hi := Header.isInline_of_words hread (lineFeed_not_mem_logicalLine hwhole) hwords
  have hindent : '\n' ∉ indentOf marker := fun hc =>
    not_mem_of_mem_lines (List.mem_of_getElem? hm) ((List.takeWhile_sublist _).subset hc)
  have hlines := lines_indented (Header.isTemplateLine hi) hindent
  rw [← htext] at hlines
  have hdoc : (ofText path text).documentationAbove ((ofText path text).documentedLine cursor) =
      some [] := by
    rw [documentationAbove] at hraw ⊢
    cases hc : (ofText path text).commentsAbove ((ofText path text).documentedLine cursor) with
    | nil =>
      rw [hc] at hcaptured
      cases hcaptured
    | cons comment rest =>
      rw [hc] at hraw
      exact congrArg some hraw
  obtain ⟨hdocumented, hlogical⟩ := documentationAbove_skeleton hm hbare hi hdoc hlines
  refine noFinding_of_documentationAbove hi ?_ (hlogical ▸ hheader) hdocumented ho
  intro name hn
  exact unquote_eq_self (hnames name hn).1 (hnames name hn).2

/-- A file with a marker above a procedure whose parameter has markup in its name. -/
def markedFile : SourceFile := ofText ⟨"Tools.al"⟩
  ("codeunit 1 Tools\n\x7b\n  ///\n\n  [Test]\n" ++
    "  procedure Pack(\"Item & <No>\": Record Item; Count: Integer): Boolean\n\x7d\n")

theorem skeletonAt?_noFinding_markedFile :
    ∃ snippet o, markedFile.skeletonAt? 2 = some snippet ∧
      (markedFile.replaceLine 2 (DocAudit.lines snippet.text)).object? {} = some o ∧
      o.procedures.map (·.line) = [10] ∧
      ∀ finding ∈ o.evaluate {}, finding.range.start.line ≠ 10 := by
  have hsome : ((markedFile.skeletonAt? 2).bind fun snippet =>
      ((markedFile.replaceLine 2 (DocAudit.lines snippet.text)).object? {}).map fun o =>
        ((DocAudit.lines snippet.text).length, o.procedures.map (·.line))) = some (6, [10]) := by
    decide +kernel
  obtain ⟨snippet, hsnippet, hsome⟩ := Option.bind_eq_some_iff.1 hsome
  obtain ⟨o, ho, heq⟩ := Option.map_eq_some_iff.1 hsome
  obtain ⟨hlength, hlines⟩ := Prod.mk.inj heq
  have hheader : ((markedFile.headerBelow? 2).any fun header =>
      decide ((∀ t ∈ header.words, ∀ c ∈ t, isAllowed c = true ∧ c ≠ '\t' ∧ c ≠ '\r') ∧
        ∀ name ∈ header.parameterNames,
          trim name = name ∧ ¬ (name.head? = some '"' ∧ name.getLast? = some '"'))) = true := by
    decide +kernel
  obtain ⟨header, hheader, hfits⟩ := (Option.any_eq_true _ _).1 hheader
  obtain ⟨hwords, hnames⟩ := of_decide_eq_true hfits
  have hfinding := skeletonAt?_noFinding hsnippet hheader (by decide +kernel) (by decide +kernel)
    hwords hnames ho
  refine ⟨snippet, o, hsnippet, ho, hlines, ?_⟩
  have hline : markedFile.documentedLine 2 = 5 := by decide +kernel
  rw [← markedFile, hline, hlength] at hfinding
  exact hfinding

end SourceFile

end DocAudit
