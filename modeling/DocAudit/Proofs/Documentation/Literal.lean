import DocAudit.Proofs.Documentation.Restored
import DocAudit.Proofs.Documentation.Written

/-!
# Literal text

In a literal section markup stands for itself: the section is read as the text written in it. But a
block is escaped before it is read, and escaping knows the start of a section without knowing that
it is inside one. An escape there is never read back, so the text of a summary that is one literal
section is the text only if nothing in it is stray.

* `Markup.read?_literal`: a literal section is read as what it holds.
* `inked_tidy`: tidying keeps every character that is no blank.
* `tidy_escapeBefore_iff`: an escape in the text is an escape in the tidied text.
* `Tags.read_literalSummary_iff`: a summary that is one literal section.
-/

namespace DocAudit

open Markup

variable {t : Text}

/-- The start of a summary that is one literal section. -/
def literalStart : Text := "<summary><![CDATA["

/-- The end of such a summary. -/
def literalEnd : Text := "]]></summary>"

/-- A summary that is one literal section. -/
def literalSummary (t : Text) : Text := literalStart ++ (t ++ literalEnd)

/-- What may stand in a literal section and is not changed at the ends of lines. -/
def FitsSection (t : Text) : Prop :=
  (∀ c ∈ t, isAllowed c = true ∧ c ≠ '\r') ∧ Text.has "]]>" t = false

instance (t : Text) : Decidable (FitsSection t) := inferInstanceAs (Decidable (_ ∧ _))

/-! ## Sections -/

theorem cutAt_literal (h : Text.has "]]>" t = false) (rest : Text) :
    cutAt "]]>" (t ++ ("]]>" ++ rest)) = some (t, rest) := by
  induction t with
  | nil => rfl
  | cons c t ih =>
    rw [Text.has, Bool.or_eq_false_iff] at h
    obtain ⟨hstart, hinside⟩ := h
    have hcut := ih hinside
    -- The end does not start inside the text and finish outside: its last character is no bracket.
    have hno : ("]]>" : Text).isPrefixOf? (c :: (t ++ ("]]>" ++ rest))) = none := by
      rw [Option.eq_none_iff_forall_ne_some]
      intro after hafter
      have heq := eq_of_isPrefixOf? hafter
      rcases t with - | ⟨d, - | ⟨e, t⟩⟩
      · simp at heq
      · simp at heq
      · simp only [String.reduceToList, List.cons_append, List.nil_append, List.cons.injEq] at heq
        obtain ⟨rfl, rfl, rfl, -⟩ := heq
        simp at hstart
    rw [List.cons_append, cutAt, hno]
    simp only [hcut, Option.map_some]

/-- **A literal section is read as the text it holds.** -/
theorem Markup.read?_literal (h : FitsSection t) (rest : Text) :
    Token.read? ("<![CDATA[" ++ t ++ "]]>" ++ rest) = some (.text t, rest) := by
  have hallowed : t.all isAllowed = true := List.all_eq_true.2 fun c hc => (h.1 c hc).1
  have hends : readLineEnds false (plainly t) = t := by
    have hreturn : '\r' ∉ t := fun hc => (h.1 _ hc).2 rfl
    exact @readLineEnds_writtenBy (fun _ => none) t hreturn false
  have hread : Token.read? ("<![CDATA[" ++ t ++ "]]>" ++ rest) =
      readLiteral? (t ++ ("]]>" ++ rest)) := by
    simp only [List.append_assoc]
    rfl
  rw [hread, readLiteral?, cutAt_literal h.2]
  simp only [Option.bind_eq_bind, Option.bind_some, hallowed, hends]
  rfl

/-! ## What tidying keeps -/

/-- How many characters are no blanks. -/
def inked (t : Text) : Nat := t.countP (!isBlank ·)

@[simp] theorem inked_append (s t : Text) : inked (s ++ t) = inked s + inked t := List.countP_append

theorem inked_of_allBlank (h : allBlank t = true) : inked t = 0 := by
  rw [inked, List.countP_eq_zero]
  intro c hc
  simp [List.all_eq_true.1 h c hc]

theorem inked_trim (t : Text) : inked (trim t) = inked t := by
  obtain ⟨blanks, hb, hright⟩ := exists_trimRight (trimLeft t)
  have hindent : allBlank (indentOf t) = true :=
    List.all_eq_true.2 fun c hc => List.mem_takeWhile_imp hc
  calc inked (trim t)
      = inked (trimLeft t) := by
        conv_rhs => rw [hright, inked_append, inked_of_allBlank hb]
        rfl
    _ = inked t := by
        conv_rhs => rw [← indentOf_append_trimLeft t, inked_append, inked_of_allBlank hindent]
        simp

theorem inked_joinLines (ls : List Text) : inked (joinLines ls) = inked ls.flatten := by
  induction ls with
  | nil => rfl
  | cons l ls ih =>
    cases ls with
    | nil => simp [joinLines]
    | cons l' ls =>
      have hfeed : inked ['\n'] = 0 := by decide
      rw [joinLines_cons_cons, ← List.singleton_append, inked_append, inked_append, ih, hfeed,
        Nat.zero_add, ← inked_append]
      rfl

theorem flatten_extendFirst (c : Char) (ls : List Text) :
    (extendFirst c ls).flatten = c :: ls.flatten := by
  cases ls <;> simp [extendFirst]

theorem inked_flatten_lines (t : Text) : inked (lines t).flatten = inked t := by
  induction t with
  | nil => rfl
  | cons c rest ih =>
    have hcons (t : Text) : inked (c :: t) = inked [c] + inked t := inked_append [c] t
    have hblank (hc : isBlank c = true) : inked [c] = 0 :=
      inked_of_allBlank (List.all_eq_true.2 fun d hd => List.mem_singleton.1 hd ▸ hc)
    rw [lines, hcons]
    split
    · next hc => rw [List.flatten_cons, List.nil_append, ih, hblank (hc ▸ by decide), Nat.zero_add]
    · split
      · next hc => rw [ih, hblank (hc.1 ▸ by decide), Nat.zero_add]
      · rw [flatten_extendFirst, hcons, ih]

theorem inked_flatten_map_trim (ls : List Text) :
    inked (ls.map trim).flatten = inked ls.flatten := by
  induction ls with
  | nil => rfl
  | cons l ls ih =>
    rw [List.map_cons, List.flatten_cons, List.flatten_cons, inked_append, inked_append,
      inked_trim, ih]

theorem flatten_dropWhile (ls : List Text) :
    (ls.dropWhile List.isEmpty).flatten = ls.flatten := by
  induction ls with
  | nil => rfl
  | cons l ls ih =>
    by_cases hl : l.isEmpty = true
    · rw [List.dropWhile_cons_of_pos hl, ih, List.isEmpty_iff.1 hl, List.flatten_cons,
        List.nil_append]
    · rw [List.dropWhile_cons_of_neg hl]

theorem flatten_reverse_dropWhile (ls : List Text) :
    (ls.dropWhile List.isEmpty).reverse.flatten = ls.reverse.flatten := by
  induction ls with
  | nil => rfl
  | cons l ls ih =>
    by_cases hl : l.isEmpty = true
    · rw [List.dropWhile_cons_of_pos hl, ih, List.isEmpty_iff.1 hl]
      simp
    · rw [List.dropWhile_cons_of_neg hl]

/-- **Tidying keeps every character that is no blank.** -/
theorem inked_tidy (t : Text) : inked (tidy t) = inked t := by
  rw [tidy, inked_joinLines, flatten_reverse_dropWhile, List.reverse_reverse, flatten_dropWhile,
    inked_flatten_map_trim, inked_flatten_lines]

/-! ## Escapes in a section -/

/-- Escaping adds characters, and none of them is a blank. -/
theorem inked_escapeBefore (after t : Text) :
    inked t ≤ inked (escapeBefore after t) ∧
      (inked (escapeBefore after t) = inked t → NoStray after → NoStray (t ++ after)) := by
  induction t with
  | nil => exact ⟨Nat.le_refl _, fun _ h => h⟩
  | cons c t ih =>
    obtain ⟨hle, hstray⟩ := ih
    have hcons : inked (c :: t) = inked [c] + inked t := inked_append [c] t
    rw [escapeBefore, inked_append, hcons]
    cases hi : strayImage? c (t ++ after) with
    | none =>
      refine ⟨Nat.add_le_add_left hle _, fun heq hafter => ⟨hi, hstray ?_ hafter⟩⟩
      exact Nat.add_left_cancel heq
    | some image =>
      have himage : inked [c] < inked image := by
        rcases image_of_stray hi with ⟨rfl, rfl⟩ | ⟨rfl, rfl⟩ <;> decide
      rw [Option.getD_some]
      constructor
      · omega
      · intro heq
        omega

/-- **An escape in the text is an escape in the tidied text.** -/
theorem tidy_escapeBefore_iff {after : Text} (hafter : NoStray after) :
    tidy (escapeBefore after t) = tidy t ↔ NoStray (t ++ after) := by
  constructor
  · intro h
    refine (inked_escapeBefore after t).2 ?_ hafter
    rw [← inked_tidy, h, inked_tidy]
  · intro h
    have htext := text_escapeStray_eq t after
    rw [escapeStray_of_noStray h, escapeStray_of_noStray hafter] at htext
    rw [← List.append_cancel_right htext]

theorem noStray_literalEnd : NoStray literalEnd := by
  have htag : NoStray "/summary>" := NoStray.append_left (s := "/summary>") (by decide) trivial
  have hopens : strayImage? '<' "/summary>" = none := by
    rw [strayImage?, if_neg (by decide), if_pos rfl, if_pos]
    exact (@opensMarkup_tag "summary" ['>'] summary_mem rfl).2
  have hclosing : NoStray ('<' :: "/summary>") := ⟨hopens, htag⟩
  exact hclosing.append_left (s := "]]>") (by decide)

theorem FitsSection.escapeBefore (h : FitsSection t) (after : Text) :
    FitsSection (escapeBefore after t) := by
  have hwritten := referenced_escapeBefore after t
  constructor
  · intro c hc
    rcases hwritten.mem hc with hc | hc
    · exact h.1 c hc
    · exact (show ∀ d ∈ imageCharacters, isAllowed d = true ∧ d ≠ '\r' by decide) c hc
  · have hend := h.2
    rw [Bool.eq_false_iff] at hend ⊢
    intro hhas
    exact hend (has_iff_isInfix.2
      (hwritten.isInfix (by decide) (by decide) (has_iff_isInfix.1 hhas)))

/-- Escaping leaves the tags and the ends of the section alone. -/
theorem text_escapeStray_literalSummary (t : Text) :
    (escapeStray (literalSummary t)).text =
      literalSummary (escapeBefore literalEnd t) := by
  have htag :
      strayImage? '<' ("summary>" ++ ('<' :: ("![CDATA[" ++ (t ++ literalEnd)))) = none := by
    rw [strayImage?, if_neg (by decide), if_pos rfl, if_pos]
    exact (opensMarkup_tag summary_mem rfl).1
  have hsection : strayImage? '<' ("![CDATA[" ++ (t ++ literalEnd)) = none := rfl
  have hraw : literalSummary t =
      '<' :: ("summary>" ++ ('<' :: ("![CDATA[" ++ (t ++ literalEnd)))) := rfl
  rw [hraw, text_escapeStray_cons, htag, text_escapeStray_append (by decide),
    text_escapeStray_cons, hsection, text_escapeStray_append (by decide), text_escapeStray_eq,
    escapeStray_of_noStray noStray_literalEnd]
  rfl

/-! ## The summary -/

/-- The tags of a summary. What stands between them does not matter here. -/
def summaryTags : Fragment where
  tag := "summary"
  known := summary_mem
  name := none
  inline := inline_of_none
  text := "text"
  ne_nil := by decide
  allowed := by decide

/-- The element of a summary, when that many characters are in its block. -/
def summaryElement (length : Nat) (t : Text) : Element where
  name := "summary"
  attributes := []
  text := t
  start := 0
  stop := length

@[simp] theorem summaryElement_stop (length : Nat) (t : Text) :
    (summaryElement length t).stop = length := rfl

theorem elements?_literalSummary (h : FitsSection t) :
    elements? (literalSummary t) = some [summaryElement (literalSummary t).length t] := by
  have hread := Markup.read?_literal h
  have helements := elementsAt?_written summaryTags (fun rest => hread ('<' :: rest)) 0 []
  have hraw : summaryTags.opening ++ ("<![CDATA[" ++ t ++ "]]>") ++ summaryTags.closing =
      literalSummary t := by
    simp only [List.append_assoc]
    rfl
  rw [List.append_nil, elementsAt?_nil, Nat.zero_add, ← List.append_assoc, hraw] at helements
  exact helements

/-- The tags of a summary that is one literal section: what is stray in its text stays escaped. -/
theorem Tags.read_literalSummary (h : FitsSection t) :
    read (literalSummary t) =
      { summary := some
          { markup := literalSummary t, text := tidy (escapeBefore literalEnd t) } } := by
  have helements := elements?_literalSummary (h.escapeBefore literalEnd)
  rw [← text_escapeStray_literalSummary] at helements
  exact read_of_summary helements rfl rfl (summaryElement_stop _ _)

/-- **When literal text is literal.** A summary that is one literal section is the only tag of its
block, with its markup as written. Its text is that of the section, line by line, exactly if nothing
in the section is stray: every ampersand starts a reference, and every angle bracket opens markup of
documentation. -/
theorem Tags.read_literalSummary_iff (h : FitsSection t) :
    read (literalSummary t) =
        { summary := some
            { markup := literalSummary t, text := tidy (escapeBefore literalEnd t) } } ∧
      (tidy (escapeBefore literalEnd t) = tidy t ↔ NoStray (t ++ literalEnd)) :=
  ⟨read_literalSummary h, tidy_escapeBefore_iff noStray_literalEnd⟩

/-- What is written as a reference or as a tag stands for itself in a literal section. -/
theorem Tags.read_literalSummary_iff_marked :
    FitsSection "&#38; is\n <b>bold</b> " ∧
      (read (literalSummary "&#38; is\n <b>bold</b> ")).summary.map (·.text) =
        some "&#38; is\n<b>bold</b>" := by
  have hfits : FitsSection "&#38; is\n <b>bold</b> " := by decide
  obtain ⟨hread, hliteral⟩ := read_literalSummary_iff hfits
  refine ⟨hfits, ?_⟩
  rw [hread, Option.map_some, hliteral.2 (by decide +kernel)]
  decide +kernel

/-- An ampersand alone does not stand for itself. -/
theorem Tags.exists_read_literalSummary_ne :
    ∃ t, FitsSection t ∧ (read (literalSummary t)).summary.map (·.text) ≠ some (tidy t) := by
  have hfits : FitsSection "a & b" := by decide
  refine ⟨"a & b", hfits, ?_⟩
  rw [read_literalSummary hfits, Option.map_some, ne_eq, Option.some.injEq]
  decide +kernel

end DocAudit
