import DocAudit.Markup.Reference
import DocAudit.Skeleton

/-!
# Escaped text reads as itself

Text whose markup characters are written as references is read back as the text it was, between
tags and in the value of an attribute. Only line ends are at stake: between tags a carriage return
would read as a line feed, and in a value every blank reads as a space.

* `Referenced`: text with references in place of some of its characters, and what is found in it.
* `Inline`: text that is read back from the value of an attribute.
* `WritesReferences`, `written?_escapeWith`: the references of an escape are read one by one.
* `decodeText?_escapeMarkup`, `decodeValue?_escapeMarkup`: escaped text reads as the text.
-/

namespace DocAudit

open Markup

/-! ## References -/

/-- The characters that references are written with. -/
def imageCharacters : Text := "&amp;&lt;&gt;&quot;"

/-- A reference reads as the character it was written for, whatever follows it. Only its ampersand
is a markup character. -/
theorem exists_of_markupImage? {c : Char} {image : Text} (h : markupImage? c = some image) :
    ∃ name, image = '&' :: name ∧ (∀ d ∈ name, markupImage? d = none) ∧
      ∀ rest, Reference.read? (name ++ rest) = some (.named c, rest) := by
  rw [markupImage?] at h
  split at h
  · next hc =>
    cases h
    exact ⟨("amp;" : Text), rfl, by decide, fun rest => by rw [hc]; rfl⟩
  · split at h
    · next hc =>
      cases h
      exact ⟨("lt;" : Text), rfl, by decide, fun rest => by rw [hc]; rfl⟩
    · split at h
      · next hc =>
        cases h
        exact ⟨("gt;" : Text), rfl, by decide, fun rest => by rw [hc]; rfl⟩
      · split at h
        · next hc =>
          cases h
          exact ⟨("quot;" : Text), rfl, by decide, fun rest => by rw [hc]; rfl⟩
        · cases h

theorem markupImage?_subset {c : Char} {image : Text} (h : markupImage? c = some image) :
    image ⊆ imageCharacters := by
  rw [markupImage?] at h
  split at h
  · cases h
    decide
  · split at h
    · cases h
      decide
    · split at h
      · cases h
        decide
      · split at h
        · cases h
          decide
        · cases h

theorem markupImage?_eq_none_iff {c : Char} :
    markupImage? c = none ↔ c ≠ '&' ∧ c ≠ '<' ∧ c ≠ '>' ∧ c ≠ '"' := by
  constructor
  · intro h
    refine ⟨?_, ?_, ?_, ?_⟩ <;>
      · intro hc
        rw [hc] at h
        exact absurd h (by decide)
  · intro ⟨hamp, hlt, hgt, hquot⟩
    rw [markupImage?, if_neg hamp, if_neg hlt, if_neg hgt, if_neg hquot]

/-! ## Characters -/

theorem escapeMarkup_append (s t : Text) :
    escapeMarkup (s ++ t) = escapeMarkup s ++ escapeMarkup t := List.flatMap_append

theorem escapeMarkup_eq_self {t : Text} (h : ∀ c ∈ t, markupImage? c = none) :
    escapeMarkup t = t := by
  induction t with
  | nil => rfl
  | cons c rest ih =>
    rw [escapeMarkup, escapeWith_cons, h c List.mem_cons_self, ← escapeMarkup,
      ih fun d hd => h d (List.mem_cons_of_mem c hd)]
    rfl

/-- Escaped text holds no markup character but the ampersands of its references. -/
theorem mem_escapeMarkup {d : Char} {t : Text} (h : d ∈ escapeMarkup t) :
    (d ∈ t ∧ markupImage? d = none) ∨ d ∈ imageCharacters := by
  obtain ⟨c, hc, hd⟩ := List.mem_flatMap.1 h
  cases hi : markupImage? c with
  | none =>
    rw [hi, Option.getD_none, List.mem_singleton] at hd
    subst hd
    exact Or.inl ⟨hc, hi⟩
  | some image =>
    rw [hi, Option.getD_some] at hd
    exact Or.inr (markupImage?_subset hi hd)

theorem not_mem_escapeMarkup (t : Text) :
    '<' ∉ escapeMarkup t ∧ '>' ∉ escapeMarkup t ∧ '"' ∉ escapeMarkup t := by
  refine ⟨fun h => ?_, fun h => ?_, fun h => ?_⟩ <;>
    · rcases mem_escapeMarkup h with ⟨-, h⟩ | h
      · revert h
        decide
      · revert h
        decide

theorem forall_mem_escapeMarkup {P : Char → Prop} {t : Text} (ht : ∀ c ∈ t, P c)
    (hi : ∀ c ∈ imageCharacters, P c) : ∀ c ∈ escapeMarkup t, P c := by
  intro c hc
  rcases mem_escapeMarkup hc with ⟨hc, -⟩ | hc
  · exact ht c hc
  · exact hi c hc

theorem escapeMarkup_ne_nil {t : Text} (h : t ≠ []) : escapeMarkup t ≠ [] := by
  cases t with
  | nil => exact absurd rfl h
  | cons c rest =>
    rw [escapeMarkup, escapeWith_cons]
    intro he
    have hnil := (List.append_eq_nil_iff.1 he).1
    cases hi : markupImage? c with
    | none =>
      rw [hi] at hnil
      cases hnil
    | some image =>
      obtain ⟨name, rfl, -, -⟩ := exists_of_markupImage? hi
      rw [hi] at hnil
      cases hnil

/-! ## Finding -/

/-- The second text is the first with references in place of some characters. -/
inductive Referenced : Text → Text → Prop
  | nil : Referenced [] []
  | keep (c : Char) {s t : Text} (h : Referenced s t) : Referenced (c :: s) (c :: t)
  | refer (c : Char) {name s t : Text} (hname : '&' :: name ⊆ imageCharacters)
      (h : Referenced s t) : Referenced (c :: s) ('&' :: name ++ t)

/-- A piece is not found where its first character is not found. -/
theorem isInfix_of_append {c : Char} {w s t : Text} (hc : c ∉ s) (h : c :: w <:+: s ++ t) :
    c :: w <:+: t := by
  induction s with
  | nil => exact h
  | cons d s ih =>
    rw [List.mem_cons, not_or] at hc
    rcases List.infix_cons_iff.1 h with hprefix | hinfix
    · exact absurd (List.cons_prefix_cons.1 hprefix).1 hc.1
    · exact ih hc.2 hinfix

namespace Referenced

variable {c : Char} {s t w : Text}

theorem cons {image : Option Text} (c : Char)
    (himage : ∀ written, image = some written →
      ∃ name, written = '&' :: name ∧ '&' :: name ⊆ imageCharacters)
    (h : Referenced s t) : Referenced (c :: s) (image.getD [c] ++ t) := by
  cases image with
  | none => exact keep c h
  | some written =>
    obtain ⟨name, rfl, hname⟩ := himage written rfl
    exact refer c hname h

theorem mem (h : Referenced s t) (hc : c ∈ t) : c ∈ s ∨ c ∈ imageCharacters := by
  induction h with
  | nil => exact Or.inl hc
  | keep d h ih =>
    rcases List.mem_cons.1 hc with rfl | hc
    · exact Or.inl List.mem_cons_self
    · exact (ih hc).imp_left (List.mem_cons_of_mem d)
  | refer d hname h ih =>
    rcases List.mem_append.1 hc with hc | hc
    · exact Or.inr (hname hc)
    · exact (ih hc).imp_left (List.mem_cons_of_mem d)

theorem lower (h : Referenced s t) : Referenced (lower s) (lower t) := by
  induction h with
  | nil => exact nil
  | keep c h ih => exact keep c.toLower ih
  | @refer c name s t hname h ih =>
    have hplain : ∀ d ∈ imageCharacters, d.toLower = d := by decide
    have himage : DocAudit.lower ('&' :: name) = '&' :: name :=
      (List.map_congr_left fun d hd => hplain d (hname hd)).trans (List.map_id' _)
    have happend : DocAudit.lower ('&' :: name ++ t) = '&' :: name ++ DocAudit.lower t := by
      rw [DocAudit.lower, List.map_append, ← DocAudit.lower, himage, DocAudit.lower]
    rw [happend]
    exact refer c.toLower hname ih

/-- What starts the text with references starts the text, if it has no ampersand. -/
theorem isPrefix (hw : '&' ∉ w) (h : Referenced s t) (hp : w <+: t) : w <+: s := by
  induction h generalizing w with
  | nil => exact hp
  | keep d h ih =>
    cases w with
    | nil => exact List.nil_prefix
    | cons c w =>
      rw [List.mem_cons, not_or] at hw
      obtain ⟨rfl, htail⟩ := List.cons_prefix_cons.1 hp
      exact List.cons_prefix_cons.2 ⟨rfl, ih hw.2 htail⟩
  | refer d hname h ih =>
    cases w with
    | nil => exact List.nil_prefix
    | cons c w =>
      rw [List.mem_cons, not_or] at hw
      exact absurd (List.cons_prefix_cons.1 hp).1.symm hw.1

/-- **References make no word**: one that does not start like a part of a reference, and has no
ampersand, stands in the text if it stands in the text with references. -/
theorem isInfix (hc : c ∉ imageCharacters) (hw : '&' ∉ c :: w) (h : Referenced s t)
    (hi : c :: w <:+: t) : c :: w <:+: s := by
  induction h with
  | nil => exact hi
  | @keep d s t h ih =>
    rcases List.infix_cons_iff.1 hi with hprefix | hinfix
    · exact ((keep d h).isPrefix hw hprefix).isInfix
    · exact (ih hinfix).trans (List.suffix_cons d s).isInfix
  | @refer d name s t hname h ih =>
    have hrest := isInfix_of_append (fun hmem => hc (hname hmem)) hi
    exact (ih hrest).trans (List.suffix_cons d s).isInfix

end Referenced

/-! ## Reading back -/

/-- An escape writes references: one for each character it replaces, and it leaves no ampersand. -/
structure WritesReferences (image : Char → Option Text) : Prop where
  read : ∀ {c : Char} {written : Text}, image c = some written →
    ∃ name, written = '&' :: name ∧
      ∀ rest, Reference.read? (name ++ rest) = some (.named c, rest)
  ampersand : ∀ {c : Char}, image c = none → c ≠ '&'

theorem writesReferences_markupImage? : WritesReferences markupImage? where
  read h := by
    obtain ⟨name, hw, -, hread⟩ := exists_of_markupImage? h
    exact ⟨name, hw, hread⟩
  ampersand h := (markupImage?_eq_none_iff.1 h).1

/-- How a character stands in text that an escape has gone through. -/
def writtenBy (image : Char → Option Text) (c : Char) : Written :=
  if (image c).isSome then .reference c else .plain c

/-- How a character stands in escaped text. -/
def writtenAs (c : Char) : Written :=
  if (markupImage? c).isSome then .reference c else .plain c

theorem written?_plain {c : Char} (hc : c ≠ '&') (rest : Text) :
    written? (c :: rest) = (written? rest).map (.plain c :: ·) := by
  rw [written?, if_neg hc]

theorem written?_reference {name rest : Text} {c : Char}
    (h : Reference.read? (name ++ rest) = some (.named c, rest)) :
    written? ('&' :: (name ++ rest)) = (written? rest).map (.reference c :: ·) := by
  rw [written?, if_pos rfl]
  split
  · next r after hr =>
    rw [h] at hr
    cases hr
    cases written? rest with
    | none => rfl
    | some w => rfl
  · next hr =>
    rw [h] at hr
    cases hr

section Reading

variable {image : Char → Option Text}

/-- **The references of escaped text are read one by one.** -/
theorem written?_escapeWith (h : WritesReferences image) (t : Text) :
    written? (escapeWith image t) = some (t.map (writtenBy image)) := by
  induction t with
  | nil => rw [escapeWith_nil, written?, List.map_nil]
  | cons c t ih =>
    rw [escapeWith_cons, List.map_cons, writtenBy]
    cases hi : image c with
    | none =>
      rw [Option.getD_none, List.singleton_append, written?_plain (h.ampersand hi), ih]
      rfl
    | some written =>
      obtain ⟨name, rfl, hread⟩ := h.read hi
      rw [Option.getD_some, List.cons_append, written?_reference (hread _), ih]
      rfl

theorem readLineEnds_writtenBy {t : Text} (ht : '\r' ∉ t) (afterReference : Bool) :
    readLineEnds afterReference (t.map (writtenBy image)) = t := by
  induction t generalizing afterReference with
  | nil => rfl
  | cons c t ih =>
    rw [List.mem_cons, not_or] at ht
    rw [List.map_cons, writtenBy]
    split
    · rw [readLineEnds, ih ht.2]
    · rw [readLineEnds.eq_def]
      simp only
      rw [if_neg (Ne.symm ht.1), ih ht.2]

/-- Escaped text between tags reads as the text, whatever else the escape replaces. -/
theorem decodeText?_escapeWith (h : WritesReferences image) {t : Text} (ht : '\r' ∉ t) :
    decodeText? (escapeWith image t) = some t := by
  rw [decodeText?, written?_escapeWith h, Option.map_some, readLineEnds_writtenBy ht]

end Reading

theorem written?_escapeMarkup (t : Text) : written? (escapeMarkup t) = some (t.map writtenAs) :=
  written?_escapeWith writesReferences_markupImage? t

/-- **Escaped text between tags reads as the text**, if no carriage return is in it. -/
theorem decodeText?_escapeMarkup {t : Text} (ht : '\r' ∉ t) :
    decodeText? (escapeMarkup t) = some t :=
  decodeText?_escapeWith writesReferences_markupImage? ht

/-- Text that markup allows and that reads back from a value: of the blanks of markup it holds only
spaces. -/
def Inline (t : Text) : Prop := ∀ c ∈ t, isAllowed c = true ∧ (isSpace c = true → c = ' ')

instance (t : Text) : Decidable (Inline t) :=
  inferInstanceAs (Decidable (∀ c ∈ t, isAllowed c = true ∧ (isSpace c = true → c = ' ')))

theorem Inline.append {s t : Text} (hs : Inline s) (ht : Inline t) : Inline (s ++ t) := by
  intro c hc
  rcases List.mem_append.1 hc with hc | hc
  · exact hs c hc
  · exact ht c hc

theorem Inline.not_mem_lineFeed {t : Text} (h : Inline t) : '\n' ∉ t := fun hc =>
  absurd ((h _ hc).2 rfl) (by decide)

theorem Inline.not_mem_return {t : Text} (h : Inline t) : '\r' ∉ t := fun hc =>
  absurd ((h _ hc).2 rfl) (by decide)

theorem Inline.escapeMarkup {t : Text} (h : Inline t) : Inline (escapeMarkup t) :=
  forall_mem_escapeMarkup h (by decide)

theorem readSpaces_writtenAs {t : Text} (ht : Inline t) : readSpaces (t.map writtenAs) = t := by
  induction t with
  | nil => rfl
  | cons c t ih =>
    have hrest := ih fun d hd => ht d (List.mem_cons_of_mem c hd)
    have hc := (ht c List.mem_cons_self).2
    rw [List.map_cons, writtenAs]
    split
    · rw [readSpaces, hrest]
    · have hr : ¬ (c = '\r' ∧ (t.map writtenAs).head? = some (.plain '\n')) := by
        rintro ⟨rfl, -⟩
        exact absurd (hc rfl) (by decide)
      have hspace : (if isSpace c = true then ' ' else c) = c := by
        split
        · next hs => exact (hc hs).symm
        · rfl
      rw [readSpaces, if_neg hr, hspace, hrest]

/-- **Escaped text in the value of an attribute reads as the text.** -/
theorem decodeValue?_escapeMarkup {t : Text} (ht : Inline t) :
    decodeValue? (escapeMarkup t) = some t := by
  rw [decodeValue?, written?_escapeMarkup, Option.map_some, readSpaces_writtenAs ht]

end DocAudit
