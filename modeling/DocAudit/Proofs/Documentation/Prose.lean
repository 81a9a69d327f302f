import DocAudit.Proofs.Documentation.Places
import DocAudit.Proofs.Documentation.Word

/-!
# Prose

Prose is text in which no reference starts and no tag of documentation opens. All its ampersands
and angle brackets are stray. This must still be true when the prose stands in a block, where the
blanks at the ends of its lines are gone and a line with an end tag follows: neither references nor
the starts of tags have blanks in them, and what comes after the name of a tag may be blank anyway.

* `Unmarked`: nothing in a text is written as markup.
* `Padded`: two texts differ in blanks at the ends of lines.
* `Padded.reference`, `Padded.opensMarkup`: what is markup in a block is markup in its prose.
* `text_escapeStray_prose`: prose in a block is escaped character by character.
-/

namespace DocAudit

open Markup

/-- No reference starts in a text, and no tag of documentation opens. -/
def Unmarked : Text → Prop
  | [] => True
  | c :: rest =>
    (c = '&' → Reference.read? rest = none) ∧ (c = '<' → opensMarkup rest = false) ∧ Unmarked rest

instance decidableUnmarked : (t : Text) → Decidable (Unmarked t)
  | [] => isTrue trivial
  | c :: rest =>
    have := decidableUnmarked rest
    inferInstanceAs (Decidable ((c = '&' → Reference.read? rest = none) ∧
      (c = '<' → opensMarkup rest = false) ∧ Unmarked rest))

theorem Unmarked.of_append {s t : Text} (h : Unmarked (s ++ t)) : Unmarked t := by
  induction s with
  | nil => exact h
  | cons c s ih => exact ih h.2.2

/-! ## Blanks at the ends of lines -/

/-- The second text is the first with blanks added at the ends of lines. -/
inductive Padded : Text → Text → Prop
  | nil {blanks : Text} (hb : allBlank blanks = true) : Padded [] blanks
  | lineFeed {blanks s t : Text} (hb : allBlank blanks = true) (h : Padded s t) :
      Padded ('\n' :: s) (blanks ++ '\n' :: t)
  | cons {c : Char} {s t : Text} (h : Padded s t) : Padded (c :: s) (c :: t)

namespace Padded

variable {s t : Text}

theorem append_left (u : Text) (h : Padded s t) : Padded (u ++ s) (u ++ t) := by
  induction u with
  | nil => exact h
  | cons c u ih => exact cons ih

theorem joinLines (ls : List Text) :
    Padded (joinLines (ls.map trimRight)) (joinLines ls) := by
  induction ls with
  | nil => exact nil rfl
  | cons l ls ih =>
    obtain ⟨blanks, hb, hl⟩ := exists_trimRight l
    cases ls with
    | nil =>
      have h := (nil hb).append_left (trimRight l)
      rw [List.append_nil, ← hl] at h
      rw [List.map_singleton, DocAudit.joinLines, DocAudit.joinLines, List.intercalate_singleton,
        List.intercalate_singleton]
      exact h
    | cons l' ls =>
      have h := (lineFeed hb ih).append_left (trimRight l)
      rw [← List.append_assoc, ← hl] at h
      rw [joinLines_cons_cons, List.map_cons, List.map_cons, joinLines_cons_cons]
      exact h

/-- A word at the start of the shorter text, seen with a line feed after it, is at the start of the
longer one. -/
theorem exists_of_tight {w rest after : Text} (h : Padded s t) (hw : Tight w)
    (heq : s ++ '\n' :: after = w ++ rest) :
    ∃ s' t', rest = s' ++ '\n' :: after ∧ t = w ++ t' ∧ Padded s' t' := by
  induction w generalizing s t with
  | nil => exact ⟨s, t, heq.symm, rfl, h⟩
  | cons c w ih =>
    have hc := (hw c List.mem_cons_self).1
    have hrest : Tight w := fun d hd => hw d (List.mem_cons_of_mem c hd)
    have hfeed : c ≠ '\n' := by
      rintro rfl
      revert hc
      decide
    cases h with
    | nil hb => exact absurd (List.cons.inj heq).1.symm hfeed
    | lineFeed hb h => exact absurd (List.cons.inj heq).1.symm hfeed
    | cons h =>
      obtain ⟨rfl, htail⟩ := List.cons.inj heq
      obtain ⟨s', t', hend, rfl, h'⟩ := ih h hrest htail
      exact ⟨s', t', hend, rfl, h'⟩

theorem find?_bracket_blanks {blanks : Text} (hb : allBlank blanks = true) (t : Text) :
    (blanks ++ t).find? (fun d => d = '<' || d = '>') =
      t.find? (fun d => d = '<' || d = '>') := by
  have hnone : blanks.find? (fun d => d = '<' || d = '>') = none := by
    refine List.find?_eq_none.2 fun c hc h => ?_
    have hblank := List.all_eq_true.1 hb c hc
    rw [Bool.or_eq_true, decide_eq_true_iff, decide_eq_true_iff] at h
    rcases h with rfl | rfl <;>
      · revert hblank
        decide
  rw [List.find?_append, hnone, Option.none_or]

/-- The next angle bracket of the shorter text, before a tag that follows it, is that of the longer
one. -/
theorem find?_bracket (h : Padded s t) {after : Text}
    (hs : (s ++ '\n' :: '<' :: after).find? (fun d => d = '<' || d = '>') = some '>') :
    t.find? (fun d => d = '<' || d = '>') = some '>' := by
  induction h with
  | nil hb => cases hs
  | lineFeed hb h ih =>
    rw [find?_bracket_blanks hb]
    exact ih hs
  | @cons c s t h ih =>
    rw [List.cons_append, List.find?_cons] at hs
    rw [List.find?_cons]
    cases hc : (decide (c = '<') || decide (c = '>')) with
    | true =>
      rw [hc] at hs
      exact hs
    | false =>
      rw [hc] at hs
      exact ih hs

theorem endsTag (h : Padded s t) {after : Text}
    (hs : endsTag (s ++ '\n' :: '<' :: after) = true) : endsTag t = true := by
  cases h with
  | nil hb => cases hs
  | @lineFeed blanks s t hb h =>
    rw [List.cons_append, endsTag_cons_iff] at hs
    have hfind := h.find?_bracket (hs.resolve_left (by decide)).2
    cases blanks with
    | nil => exact endsTag_cons_iff.2 (Or.inr ⟨Or.inl (by decide), hfind⟩)
    | cons b blanks =>
      rw [allBlank, List.all_cons, Bool.and_eq_true] at hb
      rw [List.cons_append]
      refine endsTag_cons_iff.2 (Or.inr ⟨Or.inl hb.1, ?_⟩)
      rw [find?_bracket_blanks hb.2]
      exact hfind
  | cons h =>
    rw [List.cons_append, endsTag_cons_iff] at hs
    exact endsTag_cons_iff.2 (hs.imp id fun hs => ⟨hs.1, h.find?_bracket hs.2⟩)

theorem reference (h : Padded s t) {after : Text}
    (hs : (Reference.read? (s ++ '\n' :: after)).isSome = true) :
    (Reference.read? t).isSome = true := by
  obtain ⟨w, rest, hw, heq, hread⟩ := exists_word_of_reference hs
  obtain ⟨s', t', -, rfl, -⟩ := h.exists_of_tight hw.tight heq
  exact hread t'

theorem opensMarkup (h : Padded s t) {after : Text}
    (hs : opensMarkup (s ++ '\n' :: '<' :: after) = true) : opensMarkup t = true := by
  obtain ⟨w, rest, hw, heq, hopens⟩ := exists_word_of_opensMarkup hs
  obtain ⟨s', t', rfl, rfl, h'⟩ := h.exists_of_tight hw.tight heq
  exact hopens t' h'.endsTag

end Padded

/-! ## Escaping prose -/

/-- What replaces a character of prose. -/
def proseImage? (c : Char) : Option Text :=
  if c = '&' then some "&amp;" else if c = '<' then some "&lt;" else none

/-- Prose with its ampersands and angle brackets escaped. -/
def escapeProse (t : Text) : Text := escapeWith proseImage? t

/-- Every ampersand and every angle bracket of prose is stray in a block. -/
theorem strayImage?_prose {c : Char} {s t : Text} (h : Padded s t) (ht : Unmarked (c :: t))
    (after : Text) : strayImage? c (s ++ '\n' :: '<' :: after) = proseImage? c := by
  obtain ⟨hamp, hlt, -⟩ := ht
  rw [strayImage?, proseImage?]
  by_cases hc : c = '&'
  · have hnone : (Reference.read? (s ++ '\n' :: '<' :: after)).isSome = false := by
      rw [Bool.eq_false_iff]
      intro hr
      have hread := h.reference hr
      rw [hamp hc] at hread
      cases hread
    rw [if_pos hc, if_pos hc, hnone]
    rfl
  · by_cases hc' : c = '<'
    · have hnot : opensMarkup (s ++ '\n' :: '<' :: after) = false := by
        rw [Bool.eq_false_iff]
        intro ho
        have hopens := h.opensMarkup ho
        rw [hlt hc'] at hopens
        cases hopens
      rw [if_neg hc, if_neg hc, if_pos hc', if_pos hc', hnot]
      rfl
    · rw [if_neg hc, if_neg hc, if_neg hc', if_neg hc']

/-- **Prose in a block is escaped character by character**, whatever blanks it has lost. -/
theorem text_escapeStray_prose {s t : Text} (h : Padded s t) (ht : Unmarked t) (after : Text) :
    (escapeStray (s ++ '\n' :: '<' :: after)).text =
      escapeProse s ++ (escapeStray ('\n' :: '<' :: after)).text := by
  induction h with
  | nil hb => rfl
  | lineFeed hb h ih =>
    rw [List.cons_append, text_escapeStray_cons, ih ht.of_append.2.2]
    rfl
  | cons h ih =>
    rw [List.cons_append, text_escapeStray_cons, strayImage?_prose h ht, ih ht.2.2, escapeProse,
      escapeProse, escapeWith_cons, List.append_assoc]

/-! ## Reading prose -/

theorem writesReferences_proseImage? : WritesReferences proseImage? where
  read {c written} h := by
    rw [proseImage?] at h
    split at h
    · next hc =>
      cases h
      exact ⟨("amp;" : Text), rfl, fun rest => by rw [hc]; rfl⟩
    · split at h
      · next hc =>
        cases h
        exact ⟨("lt;" : Text), rfl, fun rest => by rw [hc]; rfl⟩
      · cases h
  ampersand {c} h := by
    rintro rfl
    cases h

/-- A character of prose becomes a reference or stays, and no angle bracket stays. -/
theorem proseImage?_cases (c : Char) :
    (∃ name, proseImage? c = some ('&' :: name) ∧
        ∀ d ∈ '&' :: name, d ≠ '<' ∧ d ∈ imageCharacters) ∨
      (c ≠ '<' ∧ proseImage? c = none) := by
  by_cases hamp : c = '&'
  · exact Or.inl ⟨("amp;" : Text), if_pos hamp, by decide⟩
  · by_cases hlt : c = '<'
    · refine Or.inl ⟨("lt;" : Text), ?_, by decide⟩
      rw [proseImage?, if_neg hamp, if_pos hlt]
      rfl
    · exact Or.inr ⟨hlt, by rw [proseImage?, if_neg hamp, if_neg hlt]⟩

theorem escapeProse_cons (c : Char) (t : Text) :
    escapeProse (c :: t) = (proseImage? c).getD [c] ++ escapeProse t := rfl

theorem escapeProse_append (s t : Text) : escapeProse (s ++ t) = escapeProse s ++ escapeProse t :=
  List.flatMap_append

theorem escapeProse_ne_nil {t : Text} (h : t ≠ []) : escapeProse t ≠ [] := by
  obtain ⟨c, t, rfl⟩ := List.exists_cons_of_ne_nil h
  rw [escapeProse_cons]
  rcases proseImage?_cases c with ⟨name, hi, -⟩ | ⟨-, hi⟩ <;>
    · rw [hi]
      exact List.cons_ne_nil _ _

/-- Escaped prose is made of the characters of the prose and of references, and no angle bracket
opens in it. -/
theorem mem_escapeProse {d : Char} {t : Text} (h : d ∈ escapeProse t) :
    d ≠ '<' ∧ (d ∈ t ∨ d ∈ imageCharacters) := by
  obtain ⟨c, hc, hd⟩ := List.mem_flatMap.1 h
  rcases proseImage?_cases c with ⟨name, hi, hname⟩ | ⟨hlt, hi⟩
  · rw [hi, Option.getD_some] at hd
    exact ⟨(hname d hd).1, Or.inr (hname d hd).2⟩
  · rw [hi, Option.getD_none, List.mem_singleton] at hd
    subst hd
    exact ⟨hlt, Or.inl hc⟩

theorem referenced_escapeProse (t : Text) : Referenced t (escapeProse t) := by
  induction t with
  | nil => exact Referenced.nil
  | cons c t ih =>
    rw [escapeProse_cons]
    refine ih.cons c fun image hi => ?_
    rcases proseImage?_cases c with ⟨name, hname, hsub⟩ | ⟨-, hno⟩
    · rw [hname, Option.some.injEq] at hi
      exact ⟨name, hi.symm, fun d hd => (hsub d hd).2⟩
    · rw [hno] at hi
      cases hi

/-- **Escaped prose is read as the prose**, up to the next tag. -/
theorem read?_escapeProse {t : Text} (hne : t ≠ []) (ht : ∀ c ∈ t, isAllowed c = true ∧ c ≠ '\r')
    (hsection : Text.has "]]>" t = false) (rest : Text) :
    Token.read? (escapeProse t ++ '<' :: rest) = some (.text t, '<' :: rest) := by
  have hallowed : ∀ c ∈ escapeProse t, isAllowed c = true := by
    intro c hc
    rcases (mem_escapeProse hc).2 with h | h
    · exact (ht c h).1
    · exact (show ∀ c ∈ imageCharacters, isAllowed c = true by decide) c h
  have hclosed : Text.has "]]>" (escapeProse t) = false := by
    rw [Bool.eq_false_iff] at hsection ⊢
    intro h
    have hinfix := (referenced_escapeProse t).isInfix (by decide) (by decide) (has_iff_isInfix.1 h)
    exact hsection (has_iff_isInfix.2 hinfix)
  exact Markup.read?_text (escapeProse_ne_nil hne) (fun h => (mem_escapeProse h).1 rfl) hallowed
    hclosed
    (decodeText?_escapeWith writesReferences_proseImage? fun h => (ht _ h).2 rfl) rest

end DocAudit
