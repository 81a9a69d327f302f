import DocAudit.Proofs.Markup.Fragment
import DocAudit.Proofs.Source.ProcedureHeader

/-!
# Text that is not prose

Escaping leaves alone what is written as markup: references, and the tags of documentation.

* `NoStray`: no character of a text is stray.
* `escapeStray_of_noStray`: such a text stays as it is.
* `noStray_joinLines_markup`: fragments on lines of their own are such a text.
-/

namespace DocAudit

open Markup

/-- Every character of the text may stay, seen together with what follows it. -/
def NoStray : Text → Prop
  | [] => True
  | c :: rest => strayImage? c rest = none ∧ NoStray rest

instance decidableNoStray : (t : Text) → Decidable (NoStray t)
  | [] => isTrue trivial
  | c :: rest =>
    have := decidableNoStray rest
    inferInstanceAs (Decidable (strayImage? c rest = none ∧ NoStray rest))

theorem escapeFrom_of_noStray {t : Text} (h : NoStray t) (place : Nat) :
    escapeFrom place t = { escapes := [], text := t } := by
  induction t generalizing place with
  | nil => rfl
  | cons c rest ih =>
    rw [escapeFrom, h.1]
    simp only
    rw [ih h.2]
    rfl

theorem escapeStray_of_noStray {t : Text} (h : NoStray t) :
    escapeStray t = { escapes := [], text := t } := escapeFrom_of_noStray h 0

/-! ## References -/

theorem strayImage?_eq_none {c : Char} (hc : c ≠ '&' ∧ c ≠ '<') (rest : Text) :
    strayImage? c rest = none := by
  rw [strayImage?, if_neg hc.1, if_neg hc.2]

/-- Characters that are neither ampersands nor angle brackets are never stray. -/
theorem NoStray.append_left {s rest : Text} (hs : ∀ c ∈ s, c ≠ '&' ∧ c ≠ '<')
    (h : NoStray rest) : NoStray (s ++ rest) := by
  induction s with
  | nil => exact h
  | cons c s ih =>
    exact ⟨strayImage?_eq_none (hs c List.mem_cons_self) _,
      ih fun d hd => hs d (List.mem_cons_of_mem c hd)⟩

/-- No reference is stray. -/
theorem NoStray.escapeMarkup_append (t : Text) {rest : Text} (h : NoStray rest) :
    NoStray (escapeMarkup t ++ rest) := by
  induction t with
  | nil => exact h
  | cons c t ih =>
    rw [escapeMarkup, escapeWith_cons, ← escapeMarkup, List.append_assoc]
    cases hi : markupImage? c with
    | none =>
      obtain ⟨hamp, hlt, -⟩ := markupImage?_eq_none_iff.1 hi
      exact ⟨strayImage?_eq_none ⟨hamp, hlt⟩ _, ih⟩
    | some image =>
      obtain ⟨name, rfl, hname, hread⟩ := exists_of_markupImage? hi
      refine ⟨?_, ih.append_left fun d hd => ?_⟩
      · have hsome := hread (escapeMarkup t ++ rest)
        show strayImage? '&' (name ++ (escapeMarkup t ++ rest)) = none
        rw [strayImage?, if_pos rfl, hsome]
        rfl
      · obtain ⟨hamp, hlt, -⟩ := markupImage?_eq_none_iff.1 (hname d hd)
        exact ⟨hamp, hlt⟩

/-! ## Tags -/

theorem foldCase_of_mem_documentationTags :
    ∀ tag ∈ documentationTags, ∀ c ∈ tag, foldCase c = c := by decide

/-- Markup opens where the name of a tag of documentation is read up to case, with or without a
slash, if the tag ends behind it. -/
theorem opensMarkup_of_readFolded {tag t seen rest : Text} (h : tag ∈ documentationTags)
    (hread : readFolded tag t = some (seen, rest)) (hhead : t.head? ≠ some '/')
    (hends : endsTag rest = true) : opensMarkup t = true ∧ opensMarkup ('/' :: t) = true := by
  refine ⟨?_, ?_⟩
  · rw [opensMarkup, Bool.or_eq_true]
    refine Or.inr (List.any_eq_true.2 ⟨tag, h, ?_⟩)
    rw [if_neg hhead, hread]
    exact hends
  · rw [opensMarkup, Bool.or_eq_true]
    refine Or.inr (List.any_eq_true.2 ⟨tag, h, ?_⟩)
    rw [List.head?_cons, if_pos rfl, List.drop_one, List.tail_cons, hread]
    exact hends

theorem opensMarkup_tag {tag rest : Text} (h : tag ∈ documentationTags)
    (hends : endsTag rest = true) :
    opensMarkup (tag ++ rest) = true ∧ opensMarkup ('/' :: (tag ++ rest)) = true := by
  have hread := readFolded_self (foldCase_of_mem_documentationTags tag h) rest
  obtain ⟨hne, hw⟩ := isLower_of_mem_documentationTags tag h
  have hhead : (tag ++ rest).head? ≠ some '/' := by
    cases tag with
    | nil => exact absurd rfl hne
    | cons c tag =>
      intro he
      rw [List.cons_append, List.head?_cons, Option.some.injEq] at he
      exact ne_of_isLower (hw c List.mem_cons_self) rfl he
  exact opensMarkup_of_readFolded h hread hhead hends

namespace Fragment

theorem endsTag_writtenName (e : Fragment) (rest : Text) :
    endsTag (e.writtenName ++ '>' :: rest) = true := by
  cases hn : e.name with
  | none =>
    rw [writtenName, hn]
    rfl
  | some n =>
    have hfind : (escapeMarkup n).find? (fun d => d = '<' || d = '>') = none := by
      obtain ⟨hlt, hgt, -⟩ := not_mem_escapeMarkup n
      apply List.find?_eq_none.2
      intro c hc h
      rw [Bool.or_eq_true, decide_eq_true_iff, decide_eq_true_iff] at h
      rcases h with rfl | rfl
      · exact hlt hc
      · exact hgt hc
    rw [writtenName_append_of_some hn, endsTag, List.find?_append, List.find?_cons_of_neg,
      List.find?_cons_of_neg, List.find?_append, hfind]
    · rfl
    · decide
    · decide

theorem noStray_writtenName_append (e : Fragment) {rest : Text} (h : NoStray rest) :
    NoStray (e.writtenName ++ rest) := by
  cases hn : e.name with
  | none =>
    rw [writtenName, hn]
    exact h
  | some n =>
    have hquote : NoStray ('"' :: rest) := h.append_left (s := ['"']) (by decide)
    rw [writtenName_append_of_some hn]
    exact (NoStray.escapeMarkup_append n hquote).append_left (s := ' ' :: (nameWord ++ ['=', '"']))
      (by decide)

theorem noStray_escaped_append (e : Fragment) (text : Text) {rest : Text} (h : NoStray rest) :
    NoStray (e.opening ++ (escapeMarkup text ++ (e.closing ++ rest))) := by
  have htag : ∀ c ∈ e.tag, c ≠ '&' ∧ c ≠ '<' := fun c hc =>
    ⟨ne_of_isLower (e.tag_word.2 c hc) rfl, ne_of_isLower (e.tag_word.2 c hc) rfl⟩
  have hbracket (rest : Text) (h : NoStray rest) : NoStray ('>' :: rest) :=
    h.append_left (s := ['>']) (by decide)
  have hstray {rest : Text} (h : opensMarkup rest = true) : strayImage? '<' rest = none := by
    rw [strayImage?, if_neg (by decide), if_pos rfl, if_pos h]
  have hclosing : NoStray (e.closing ++ rest) := by
    rw [closing_append]
    refine ⟨hstray (opensMarkup_tag e.known rfl).2, strayImage?_eq_none (by decide) _, ?_⟩
    exact (hbracket rest h).append_left htag
  rw [opening_append]
  refine ⟨hstray (opensMarkup_tag e.known (e.endsTag_writtenName _)).1, ?_⟩
  refine NoStray.append_left htag (e.noStray_writtenName_append (hbracket _ ?_))
  exact hclosing.escapeMarkup_append text

theorem noStray_markup_append (e : Fragment) {rest : Text} (h : NoStray rest) :
    NoStray (e.markup ++ rest) := by
  rw [markup_append]
  exact e.noStray_escaped_append e.text h

end Fragment

/-- **No character of fragments on lines of their own is stray.** -/
theorem noStray_joinLines_markup (es : List Fragment) :
    NoStray (joinLines (es.map Fragment.markup)) := by
  induction es with
  | nil => trivial
  | cons e es ih =>
    cases es with
    | nil =>
      have h : NoStray (e.markup ++ []) := e.noStray_markup_append trivial
      rw [List.append_nil] at h
      rw [List.map_cons, List.map_nil, joinLines, List.intercalate_singleton]
      exact h
    | cons e' es =>
      simp only [List.map_cons, joinLines_cons_cons]
      exact e.noStray_markup_append ⟨rfl, ih⟩

end DocAudit
