import DocAudit.Proofs.Skeleton.Lines
import DocAudit.Proofs.Source.Subset

/-!
# What a skeleton says of its header

The lines of a skeleton determine what they were made of. A body is guarded: an editor that reads
it meets no dollar sign and no closing brace without a backslash of its own, so that the placeholder
ends where it was meant to. Without its backslashes the body is markup, and with the references of
that markup read it is the text that the header asked for. The name of a parameter went through the
second escaping only.

* `Guarded`, `removeBackslashes`, `readReferences`: the readers that undo the two escapings.
* `IsPlaceholder`, `DocumentsParameter`, `DocumentsReturn`: what a line of a skeleton says.
* `ProcedureHeader.documentedBy_lines_skeleton`: the lines of the skeleton of a procedure.
-/

namespace DocAudit

open Markup

/-! ## Backslashes -/

/-- Text in which every backslash takes the character after it, and no dollar sign or closing brace
stands without one. -/
inductive Guarded : Text → Prop
  | nil : Guarded []
  | plain {c : Char} {t : Text} (hc : c ≠ '\\' ∧ c ≠ '$' ∧ c ≠ '\x7d') (h : Guarded t) :
    Guarded (c :: t)
  | escaped (c : Char) {t : Text} (h : Guarded t) : Guarded ('\\' :: c :: t)

/-- The text without the backslashes that take the character after them. -/
def removeBackslashes : Text → Text
  | '\\' :: c :: rest => c :: removeBackslashes rest
  | c :: rest => c :: removeBackslashes rest
  | [] => []

theorem removeBackslashes_cons {c : Char} (hc : c ≠ '\\') (rest : Text) :
    removeBackslashes (c :: rest) = c :: removeBackslashes rest := by
  rw [removeBackslashes]
  intro d t h
  exact absurd h hc

theorem placeholderImage?_eq_none_iff {c : Char} :
    placeholderImage? c = none ↔ c ≠ '\\' ∧ c ≠ '$' ∧ c ≠ '\x7d' := by
  simp [placeholderImage?]

/-- **Escaped text is guarded**, and without its backslashes it is the text. -/
theorem guarded_escapePlaceholder (t : Text) :
    Guarded (escapePlaceholder t) ∧ removeBackslashes (escapePlaceholder t) = t := by
  induction t with
  | nil => exact ⟨.nil, rfl⟩
  | cons c rest ih =>
    obtain ⟨hguarded, hread⟩ := ih
    rw [escapePlaceholder, escapeWith_cons, ← escapePlaceholder]
    cases hi : placeholderImage? c with
    | none =>
      have hc := placeholderImage?_eq_none_iff.1 hi
      refine ⟨.plain hc hguarded, ?_⟩
      rw [Option.getD_none, List.singleton_append, removeBackslashes_cons hc.1, hread]
    | some image =>
      obtain ⟨rfl, -, -⟩ := markupImage?_of_placeholderImage? hi
      refine ⟨.escaped c hguarded, ?_⟩
      rw [Option.getD_some, List.cons_append, List.singleton_append, removeBackslashes, hread]

/-! ## References -/

/-- The text with the four references that an escape writes read as their characters. -/
def readReferences : Text → Text
  | '&' :: 'a' :: 'm' :: 'p' :: ';' :: rest => '&' :: readReferences rest
  | '&' :: 'l' :: 't' :: ';' :: rest => '<' :: readReferences rest
  | '&' :: 'g' :: 't' :: ';' :: rest => '>' :: readReferences rest
  | '&' :: 'q' :: 'u' :: 'o' :: 't' :: ';' :: rest => '"' :: readReferences rest
  | c :: rest => c :: readReferences rest
  | [] => []

theorem readReferences_cons {c : Char} (hc : c ≠ '&') (rest : Text) :
    readReferences (c :: rest) = c :: readReferences rest := by
  rw [readReferences] <;>
    · intro t h
      exact absurd h hc

theorem readReferences_image {c : Char} {image : Text} (h : markupImage? c = some image)
    (rest : Text) : readReferences (image ++ rest) = c :: readReferences rest := by
  rw [markupImage?] at h
  split_ifs at h with hamp hlt hgt hquot <;>
    · cases h
      subst c
      simp [readReferences]

/-- **The references of escaped text read as the text.** -/
theorem readReferences_escapeMarkup (t : Text) : readReferences (escapeMarkup t) = t := by
  induction t with
  | nil => rfl
  | cons c rest ih =>
    rw [escapeMarkup, escapeWith_cons, ← escapeMarkup]
    cases hi : markupImage? c with
    | none =>
      rw [Option.getD_none, List.singleton_append,
        readReferences_cons (markupImage?_eq_none_iff.1 hi).1, ih]
    | some image => rw [Option.getD_some, readReferences_image hi, ih]

/-! ## What a line says -/

/-- The text is the placeholder with this number, and what it holds reads as the default text. -/
def IsPlaceholder (number : Nat) (default t : Text) : Prop :=
  ∃ body, t = "$\x7b" ++ decimal number ++ ":" ++ body ++ "\x7d" ∧ Guarded body ∧
    readReferences (removeBackslashes body) = default

/-- The line is the comment for a parameter: its tag has the name for an attribute, and the type in
a placeholder for its body. -/
def DocumentsParameter (number : Nat) (p : ParameterClause) (l : Text) : Prop :=
  ∃ name body, l = "/// <param name=\"" ++ name ++ "\">" ++ body ++ "</param>" ∧ '"' ∉ name ∧
    readReferences name = p.name ∧ IsPlaceholder number (p.dataType ++ ".") body

/-- The line is the comment for a return value: its tag has the sentence about it in a placeholder
for its body. -/
def DocumentsReturn (number : Nat) (r : ReturnClause) (l : Text) : Prop :=
  ∃ body, l = "/// <returns>" ++ body ++ "</returns>" ∧ IsPlaceholder number (returnSentence r) body

/-- What is read off the lines of the skeleton of a procedure: a summary of three lines, the
parameters in order, and the return value if there is any. The placeholders are numbered through. -/
structure ProcedureHeader.DocumentedBy (h : ProcedureHeader) (ls : List Text) : Prop where
  length_eq : ls.length = 3 + h.parameters.length + if h.returns.isSome then 1 else 0
  comment : ∀ l ∈ ls, ("/// " : Text) <+: l
  opening : ls[0]? = some ("/// <summary>" : Text)
  summary : ∃ body, ls[1]? = some (("/// " : Text) ++ body) ∧ IsPlaceholder 1 (h.name ++ ".") body
  closing : ls[2]? = some ("/// </summary>" : Text)
  parameter : ∀ i p, h.parameters[i]? = some p →
    ∃ l, ls[3 + i]? = some l ∧ DocumentsParameter (2 + i) p l
  returned : ∀ r, h.returns = some r →
    ∃ l, ls[3 + h.parameters.length]? = some l ∧ DocumentsReturn (2 + h.parameters.length) r l

theorem isPlaceholder_placeholder (number : Nat) (default : Text) :
    IsPlaceholder number default (placeholder number default) := by
  obtain ⟨hguarded, hread⟩ := guarded_escapePlaceholder (escapeMarkup default)
  refine ⟨escapePlaceholder (escapeMarkup default), rfl, hguarded, ?_⟩
  rw [hread, readReferences_escapeMarkup]

theorem documentsParameter_parameterLine (number : Nat) (p : ParameterClause) :
    DocumentsParameter number p (asComment [] (parameterLine number p)) := by
  refine ⟨escapeMarkup p.name, placeholder number (p.dataType ++ "."), rfl,
    (not_mem_escapeMarkup p.name).2.2, readReferences_escapeMarkup p.name, ?_⟩
  exact isPlaceholder_placeholder number (p.dataType ++ ".")

theorem documentsReturn_returnLine (number : Nat) (r : ReturnClause) :
    DocumentsReturn number r (asComment [] (returnLine number r)) :=
  ⟨placeholder number (returnSentence r), rfl, isPlaceholder_placeholder _ _⟩

/-! ## Lines -/

theorem length_parameterLines (number : Nat) (ps : List ParameterClause) :
    (parameterLines number ps).length = ps.length := by
  induction ps generalizing number with
  | nil => rfl
  | cons p ps ih => rw [parameterLines, List.length_cons, List.length_cons, ih]

/-- The lines for parameters are numbered in order. -/
theorem getElem?_parameterLines (number : Nat) (ps : List ParameterClause) (i : Nat) :
    (parameterLines number ps)[i]? = ps[i]?.map (parameterLine (number + i)) := by
  induction ps generalizing number i with
  | nil => rfl
  | cons p ps ih =>
    cases i with
    | zero => rfl
    | succ i =>
      rw [parameterLines, List.getElem?_cons_succ, List.getElem?_cons_succ, ih]
      rw [Nat.add_assoc, Nat.add_comm 1 i]

/-- The line of a template for a parameter. -/
theorem ProcedureHeader.getElem?_skeletonLines {h : ProcedureHeader} {i : Nat} {p : ParameterClause}
    (hp : h.parameters[i]? = some p) :
    h.skeletonLines[3 + i]? = some (parameterLine (2 + i) p) := by
  have hindex : (parameterLines 2 h.parameters)[i]? = some (parameterLine (2 + i) p) := by
    rw [getElem?_parameterLines, hp]
    rfl
  have hsummary : (summaryLines (h.name ++ ".") ++ parameterLines 2 h.parameters)[3 + i]? =
      some (parameterLine (2 + i) p) := by
    rw [List.getElem?_append_right (Nat.le_add_right 3 i), ← hindex]
    exact congrArg _ (Nat.add_sub_cancel_left 3 i)
  rw [skeletonLines, List.getElem?_append_left (List.getElem?_eq_some_iff.1 hsummary).1, hsummary]

theorem IsLine.append {s l : Text} (hs : '\n' ∉ s) (h : IsLine l) : IsLine (s ++ l) where
  ne_nil := List.append_ne_nil_of_right_ne_nil s h.ne_nil
  noLineFeed := by
    rw [List.mem_append, not_or]
    exact ⟨hs, h.noLineFeed⟩
  noReturn := by
    rw [getLast?_append_of_ne_nil s h.ne_nil]
    exact h.noReturn

theorem isLine_placeholder (number : Nat) {default : Text} (h : '\n' ∉ default) :
    IsLine (placeholder number default) := by
  have hne : ∀ c ∈ default, c ≠ '\n' := fun c hc he => h (he ▸ hc)
  have hbody : ∀ c ∈ escapePlaceholder (escapeMarkup default), c ≠ '\n' :=
    forall_mem_escapePlaceholder (forall_mem_escapeMarkup hne (by decide)) (by decide)
  have hstart : '\n' ∉ ("$\x7b" ++ decimal number ++ ":" : Text) := by
    simp [(inline_decimal number).not_mem_lineFeed]
  refine IsLine.append ?_ ⟨by decide, by decide, by decide⟩
  rw [List.mem_append, not_or]
  exact ⟨hstart, fun hc => hbody _ hc rfl⟩

theorem isLine_summaryLines {default : Text} (h : '\n' ∉ default) :
    ∀ l ∈ summaryLines default, IsLine l := by
  intro l hl
  rcases List.mem_cons.1 hl with rfl | hl
  · exact ⟨by decide, by decide, by decide⟩
  · rcases List.mem_cons.1 hl with rfl | hl
    · exact isLine_placeholder 1 h
    · rw [List.mem_singleton.1 hl]
      exact ⟨by decide, by decide, by decide⟩

theorem isLine_parameterLine (number : Nat) {p : ParameterClause} (hname : '\n' ∉ p.name)
    (htype : '\n' ∉ p.dataType) : IsLine (parameterLine number p) := by
  have hne : ∀ c ∈ p.name, c ≠ '\n' := fun c hc he => hname (he ▸ hc)
  have hmarkup : '\n' ∉ escapeMarkup p.name := fun hc =>
    forall_mem_escapeMarkup hne (by decide) _ hc rfl
  have hdefault : '\n' ∉ p.dataType ++ "." := by simp [htype]
  have hplaceholder := (isLine_placeholder number hdefault).noLineFeed
  refine IsLine.append ?_ ⟨by decide, by decide, by decide⟩
  rw [List.mem_append, not_or]
  exact ⟨by simp [hmarkup], hplaceholder⟩

theorem isLine_returnLine (number : Nat) {r : ReturnClause} (h : '\n' ∉ returnSentence r) :
    IsLine (returnLine number r) :=
  IsLine.append (by simp [(isLine_placeholder number h).noLineFeed])
    ⟨by decide, by decide, by decide⟩

theorem isLine_parameterLines {number : Nat} {ps : List ParameterClause}
    (h : ∀ p ∈ ps, '\n' ∉ p.name ∧ '\n' ∉ p.dataType) :
    ∀ l ∈ parameterLines number ps, IsLine l := by
  intro l hl
  obtain ⟨i, hi⟩ := List.mem_iff_getElem?.1 hl
  rw [getElem?_parameterLines] at hi
  obtain ⟨p, hp, rfl⟩ := Option.map_eq_some_iff.1 hi
  obtain ⟨hname, htype⟩ := h p (List.mem_of_getElem? hp)
  exact isLine_parameterLine _ hname htype

theorem lineFeed_not_mem_returnSentence {r : ReturnClause}
    (hname : ∀ n, r.name = some n → '\n' ∉ n) (htype : '\n' ∉ r.dataType) :
    '\n' ∉ returnSentence r := by
  rw [returnSentence]
  cases hn : r.name with
  | none => simp [htype]
  | some n => simp [htype, hname n hn]

section Header

variable {line : Text} {h : ProcedureHeader}

theorem ProcedureHeader.isLine_skeletonLines (hline : '\n' ∉ line)
    (hh : ProcedureHeader.read? line = some h) : ∀ l ∈ h.skeletonLines, IsLine l := by
  obtain ⟨hname, hparameters, hreturns⟩ := ProcedureHeader.read?_subset hh
  intro l hl
  rcases List.mem_append.1 hl with hl | hl
  · rcases List.mem_append.1 hl with hl | hl
    · have hsummary : '\n' ∉ h.name ++ "." := by
        have hn : '\n' ∉ h.name := fun hc => hline (hname hc)
        simp [hn]
      exact isLine_summaryLines hsummary l hl
    · refine isLine_parameterLines (fun p hp => ?_) l hl
      exact ⟨fun hc => hline ((hparameters p hp).1 hc), fun hc => hline ((hparameters p hp).2 hc)⟩
  · rw [Option.mem_toList] at hl
    obtain ⟨r, hr, rfl⟩ := Option.map_eq_some_iff.1 hl
    obtain ⟨hrname, hrtype⟩ := hreturns r hr
    refine isLine_returnLine _ (lineFeed_not_mem_returnSentence (fun n hn hc => ?_) fun hc => ?_)
    · exact hline (hrname n hn hc)
    · exact hline (hrtype hc)

theorem ProcedureHeader.lines_skeleton (hline : '\n' ∉ line)
    (hh : ProcedureHeader.read? line = some h) :
    lines h.skeleton = h.skeletonLines.map (asComment []) := by
  have hlines := ProcedureHeader.isLine_skeletonLines hline hh
  refine lines_joinLines fun l hl => ?_
  obtain ⟨l', hl', rfl⟩ := List.mem_map.1 hl
  exact IsLine.append (by decide) (hlines l' hl')

/-- What the lines of a template say, whatever the header. -/
theorem ProcedureHeader.documentedBy_skeletonLines (h : ProcedureHeader) :
    h.DocumentedBy (h.skeletonLines.map (asComment [])) where
  length_eq := by
    have hreturns : (h.returns.map (returnLine (2 + h.parameters.length))).toList.length =
        if h.returns.isSome then 1 else 0 := by
      cases h.returns with
      | none => rfl
      | some r => rfl
    rw [List.length_map, skeletonLines, List.length_append, List.length_append, hreturns,
      length_parameterLines]
    rfl
  comment := by
    intro l hl
    obtain ⟨l', -, rfl⟩ := List.mem_map.1 hl
    exact List.prefix_append _ l'
  opening := rfl
  summary := ⟨placeholder 1 (h.name ++ "."), rfl, isPlaceholder_placeholder _ _⟩
  closing := rfl
  parameter := by
    intro i p hp
    refine ⟨asComment [] (parameterLine (2 + i) p), ?_, documentsParameter_parameterLine _ p⟩
    rw [List.getElem?_map, getElem?_skeletonLines hp]
    rfl
  returned := by
    intro r hr
    refine ⟨asComment [] (returnLine (2 + h.parameters.length) r), ?_,
      documentsReturn_returnLine _ r⟩
    have hlength : (summaryLines (h.name ++ ".") ++ parameterLines 2 h.parameters).length =
        3 + h.parameters.length := by
      rw [List.length_append, length_parameterLines]
      rfl
    rw [List.getElem?_map, skeletonLines, List.getElem?_append_right (Nat.le_of_eq hlength),
      hlength, Nat.sub_self, hr]
    rfl

/-- **The skeleton of a procedure determines what its header says.** It has three lines for the
summary, one for each parameter in order, and one for the return value if there is any; every
placeholder reads as the text it was made for, and every name as the name of its parameter. -/
theorem ProcedureHeader.documentedBy_lines_skeleton (hline : '\n' ∉ line)
    (hh : ProcedureHeader.read? line = some h) : h.DocumentedBy (lines h.skeleton) := by
  rw [ProcedureHeader.lines_skeleton hline hh]
  exact h.documentedBy_skeletonLines

end Header

/-- A header with characters in its names that either escaping replaces. -/
def escapedLine : Text :=
  "procedure \"Pack $\\\"(var \"A\"\"&lt;\x7d\": Record \"<$>\"; N: Integer): Boolean;"

theorem documentedBy_lines_skeleton_escapedLine : '\n' ∉ escapedLine ∧
    ∃ h, ProcedureHeader.read? escapedLine = some h ∧
      h.parameters.map (·.name) = [("A\"&lt;\x7d" : Text), "N"] ∧
      h.DocumentedBy (lines h.skeleton) := by
  have hline : '\n' ∉ escapedLine := by decide +kernel
  have hread : ((ProcedureHeader.read? escapedLine).map fun h => h.parameters.map (·.name)) =
      some [("A\"&lt;\x7d" : Text), "N"] := by decide +kernel
  obtain ⟨h, hh, hnames⟩ := Option.map_eq_some_iff.1 hread
  exact ⟨hline, h, hh, hnames, ProcedureHeader.documentedBy_lines_skeleton hline hh⟩

end DocAudit
