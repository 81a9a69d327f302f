import DocAudit.Proofs.Markup.Escape
import DocAudit.Proofs.Text

/-!
# What skeletons are filled with

The two escapings of a placeholder do not get into each other's way, so that a placeholder is
escaped text. What a skeleton repeats of a header stays on its line as long as the names and types
do.

* `placeholder_eq`: a placeholder is escaped text.
* `ObjectHeader.inline_sentence`, `ProcedureHeader.IsInline`: headers whose skeletons are inline.
-/

namespace DocAudit

open Markup

/-! ## Placeholders -/

theorem escapeWith_singleton (image : Char → Option Text) (c : Char) :
    escapeWith image [c] = (image c).getD [c] := by
  rw [escapeWith_cons, escapeWith_nil, List.append_nil]

theorem escapePlaceholder_append (s t : Text) :
    escapePlaceholder (s ++ t) = escapePlaceholder s ++ escapePlaceholder t := List.flatMap_append

/-- A character that has a meaning in a placeholder has none in markup. -/
theorem markupImage?_of_placeholderImage? {c : Char} {image : Text}
    (h : placeholderImage? c = some image) :
    image = ['\\', c] ∧ markupImage? '\\' = none ∧ markupImage? c = none := by
  rw [placeholderImage?] at h
  split at h
  · next hc =>
    cases h
    refine ⟨rfl, by decide, ?_⟩
    rcases hc with rfl | rfl | rfl
    · decide
    · decide
    · decide
  · cases h

theorem placeholderImage?_imageCharacters : ∀ c ∈ imageCharacters, placeholderImage? c = none := by
  decide

theorem escapePlaceholder_eq_self {t : Text} (h : ∀ c ∈ t, placeholderImage? c = none) :
    escapePlaceholder t = t := by
  induction t with
  | nil => rfl
  | cons c rest ih =>
    rw [escapePlaceholder, escapeWith_cons, h c List.mem_cons_self, ← escapePlaceholder,
      ih fun d hd => h d (List.mem_cons_of_mem c hd)]
    rfl

theorem escapePlaceholder_escapeMarkup_singleton (c : Char) :
    escapePlaceholder (escapeMarkup [c]) = escapeMarkup (escapePlaceholder [c]) := by
  have hmarkup : escapeMarkup [c] = (markupImage? c).getD [c] := escapeWith_singleton _ c
  have hplaceholder : escapePlaceholder [c] = (placeholderImage? c).getD [c] :=
    escapeWith_singleton _ c
  rw [hmarkup, hplaceholder]
  cases hp : placeholderImage? c with
  | some image =>
    obtain ⟨rfl, hslash, hm⟩ := markupImage?_of_placeholderImage? hp
    rw [hm, Option.getD_none, hplaceholder, hp, Option.getD_some, escapeMarkup_eq_self]
    intro d hd
    rcases List.mem_cons.1 hd with rfl | hd
    · exact hslash
    · rw [List.mem_singleton.1 hd, hm]
  | none =>
    rw [Option.getD_none, hmarkup]
    cases hm : markupImage? c with
    | none => rw [Option.getD_none, hplaceholder, hp, Option.getD_none]
    | some image =>
      exact escapePlaceholder_eq_self fun d hd =>
        placeholderImage?_imageCharacters d (markupImage?_subset hm hd)

/-- **The order of the two escapings does not matter.** -/
theorem escapePlaceholder_escapeMarkup (t : Text) :
    escapePlaceholder (escapeMarkup t) = escapeMarkup (escapePlaceholder t) := by
  induction t with
  | nil => rfl
  | cons c rest ih =>
    rw [← List.singleton_append, escapeMarkup_append, escapePlaceholder_append,
      escapePlaceholder_append, escapeMarkup_append, ih, escapePlaceholder_escapeMarkup_singleton]

/-- A placeholder as it reads, its markup characters standing for themselves. -/
def placeholderText (number : Nat) (default : Text) : Text :=
  "$\x7b" ++ decimal number ++ ":" ++ escapePlaceholder default ++ "\x7d"

/-- **A placeholder is escaped text.** -/
theorem placeholder_eq (number : Nat) (default : Text) :
    placeholder number default = escapeMarkup (placeholderText number default) := by
  have hdecimal : escapeMarkup (decimal number) = decimal number := by
    refine escapeMarkup_eq_self fun c hc => markupImage?_eq_none_iff.2 ?_
    have hdigit := isDigit_of_mem_decimal hc
    refine ⟨?_, ?_, ?_, ?_⟩ <;>
      · rintro rfl
        cases hdigit
  rw [placeholder, placeholderText, escapeMarkup_append, escapeMarkup_append, escapeMarkup_append,
    escapeMarkup_append, hdecimal, escapePlaceholder_escapeMarkup]
  rfl

/-! ## Inline text -/

/-- Letters and digits, and what lies between them. -/
def InRange (c : Char) : Prop := 48 ≤ c.toNat ∧ c.toNat ≤ 0x212A

theorem inline_of_range {c : Char} (h : InRange c) :
    isAllowed c = true ∧ (isSpace c = true → c = ' ') := by
  obtain ⟨hlow, hhigh⟩ := h
  refine ⟨?_, fun hs => ?_⟩
  · rw [isAllowed, if_neg (by omega), Bool.and_eq_true, bne_iff_ne, bne_iff_ne]
    omega
  · rw [isSpace, Bool.or_eq_true, Bool.or_eq_true, Bool.or_eq_true] at hs
    rcases hs with ((hs | hs) | hs) | hs <;>
      · have hc := of_decide_eq_true hs
        subst hc
        exact absurd hlow (by decide)

theorem inRange_of_isWord {c : Char} (h : isLetter c = true ∨ c.isDigit = true) : InRange c := by
  rcases h with h | h
  · rw [isLetter, Bool.or_eq_true, Bool.or_eq_true] at h
    rcases h with (h | h) | h
    · have hc := isAlpha_iff.1 h
      exact ⟨by omega, by omega⟩
    · rw [of_decide_eq_true h]
      exact ⟨by decide, by decide⟩
    · rw [of_decide_eq_true h]
      exact ⟨by decide, by decide⟩
  · have hc := isDigit_iff.1 h
    exact ⟨by omega, by omega⟩

theorem inline_decimal (n : Nat) : Inline (decimal n) := fun _ hc =>
  inline_of_range (inRange_of_isWord (Or.inr (isDigit_of_mem_decimal hc)))

/-- What holds of a text and of backslashes holds of the text with backslashes. -/
theorem forall_mem_escapePlaceholder {P : Char → Prop} {t : Text} (ht : ∀ c ∈ t, P c)
    (hs : P '\\') : ∀ c ∈ escapePlaceholder t, P c := by
  intro d hd
  obtain ⟨c, hc, hd⟩ := List.mem_flatMap.1 hd
  cases hi : placeholderImage? c with
  | none =>
    rw [hi, Option.getD_none, List.mem_singleton] at hd
    rw [hd]
    exact ht c hc
  | some image =>
    rw [hi, (markupImage?_of_placeholderImage? hi).1, Option.getD_some] at hd
    rcases List.mem_cons.1 hd with rfl | hd
    · exact hs
    · rw [List.mem_singleton.1 hd]
      exact ht c hc

theorem Inline.escapePlaceholder {t : Text} (h : Inline t) : Inline (escapePlaceholder t) :=
  forall_mem_escapePlaceholder h (by decide)

theorem inline_placeholderText (number : Nat) {default : Text} (h : Inline default) :
    Inline (placeholderText number default) := by
  have hopen : Inline ("$\x7b" : Text) := by decide
  have hcolon : Inline (":" : Text) := by decide
  have hclose : Inline ("\x7d" : Text) := by decide
  exact (((hopen.append (inline_decimal number)).append hcolon).append h.escapePlaceholder).append
    hclose

theorem Inline.allowed {t : Text} (h : Inline t) : ∀ c ∈ t, isAllowed c = true ∧ c ≠ '\r' :=
  fun c hc => ⟨(h c hc).1, fun he => h.not_mem_return (he ▸ hc)⟩

/-- A placeholder is never blank: it starts with a dollar sign. -/
theorem mem_placeholderText (number : Nat) (default : Text) :
    '$' ∈ placeholderText number default := List.mem_cons_self

/-! ## Headers -/

/-- The name and type of a parameter are inline. -/
structure ParameterClause.IsInline (p : ParameterClause) : Prop where
  name : Inline p.name
  dataType : Inline p.dataType

/-- The name and type of a return clause are inline. -/
structure ReturnClause.IsInline (r : ReturnClause) : Prop where
  name : ∀ n, r.name = some n → Inline n
  dataType : Inline r.dataType

/-- The names and types of a procedure header are inline. -/
structure ProcedureHeader.IsInline (h : ProcedureHeader) : Prop where
  name : Inline h.name
  parameters : ∀ p ∈ h.parameters, p.IsInline
  returns : ∀ r, h.returns = some r → r.IsInline

theorem inline_period : Inline (".") := by decide

theorem ReturnClause.IsInline.sentence {r : ReturnClause} (h : r.IsInline) :
    Inline (returnSentence r) := by
  have htype := h.dataType.append inline_period
  rw [returnSentence]
  cases hn : r.name with
  | none =>
    have hstart : Inline ("Return value of type " : Text) := by decide
    exact (hstart.append h.dataType).append inline_period
  | some n =>
    have hstart : Inline ("Return variable " : Text) := by decide
    have hmiddle : Inline (" of type " : Text) := by decide
    exact (((hstart.append (h.name n hn)).append hmiddle).append h.dataType).append inline_period

/-! ## The kind of an object -/

theorem InRange.toLower {c : Char} (h : InRange c) : InRange c.toLower := by
  rcases toLower_cases c with hc | ⟨i, hi, -, hlower⟩
  · rw [hc]
    exact h
  · have hletters : ∀ i < 26, 48 ≤ (Char.ofNat (i + 97)).toNat ∧
        (Char.ofNat (i + 97)).toNat ≤ 0x212A := by decide
    rw [hlower]
    exact hletters i hi

theorem InRange.toUpper {c : Char} (h : InRange c) : InRange c.toUpper := by
  by_cases hc : 'a'.val ≤ c.val ∧ c.val ≤ 'z'.val
  · have hupper : c.toUpper = ⟨c.val + ('A'.val - 'a'.val), _⟩ := dif_pos hc
    have hlow : 97 ≤ c.val.toNat := UInt32.le_iff_toNat_le.1 hc.1
    have hhigh : c.val.toNat ≤ 122 := UInt32.le_iff_toNat_le.1 hc.2
    rw [hupper]
    show 48 ≤ (c.val + 4294967264).toNat ∧ (c.val + 4294967264).toNat ≤ 0x212A
    simp only [UInt32.toNat_add, UInt32.reduceToNat]
    omega
  · have hupper : c.toUpper = c := dif_neg hc
    rw [hupper]
    exact h

theorem inline_titled {t : Text} (h : ∀ c ∈ t, InRange c) : Inline (titled t) := by
  cases t with
  | nil =>
    intro c hc
    cases hc
  | cons c rest =>
    intro d hd
    rw [titled] at hd
    rcases List.mem_cons.1 hd with rfl | hd
    · rw [capital]
      split
      · decide
      · exact inline_of_range (h c List.mem_cons_self).toUpper
    · obtain ⟨d', hd', rfl⟩ := List.mem_map.1 hd
      rw [smallLetter]
      split
      · decide
      · exact inline_of_range (h d' (List.mem_cons_of_mem c hd')).toLower

theorem inline_kindLabel {keyword : Text}
    (h : ∀ c ∈ keyword, isLetter c = true ∨ c.isDigit = true) : Inline (kindLabel keyword) := by
  have hlower : ∀ c ∈ lower keyword, InRange c := by
    intro d hd
    obtain ⟨c, hc, rfl⟩ := List.mem_map.1 hd
    exact (inRange_of_isWord (h c hc)).toLower
  rw [kindLabel]
  cases hs : extensionEnding.isSuffixOf? (lower keyword) with
  | none => exact inline_titled hlower
  | some base =>
    have hbase : ∀ c ∈ base, InRange c := by
      obtain ⟨after, ha, rfl⟩ := Option.map_eq_some_iff.1 hs
      intro c hc
      refine hlower c (List.mem_reverse.1 ?_)
      rw [eq_of_isPrefixOf? ha]
      exact List.mem_append_right _ (List.mem_reverse.1 hc)
    have hending : Inline (" extension" : Text) := by decide
    simp only
    split
    · exact inline_titled hlower
    · exact (inline_titled hbase).append hending

theorem ObjectHeader.inline_sentence {h : ObjectHeader} (hname : Inline h.name)
    (hkeyword : ∀ c ∈ h.keyword, isLetter c = true ∨ c.isDigit = true) :
    Inline (objectSentence h) := by
  have hspace : Inline (" " : Text) := by decide
  have hopen : Inline (" (ID " : Text) := by decide
  have hclose : Inline (")" : Text) := by decide
  have hstart := ((inline_kindLabel hkeyword).append hspace).append hname
  rw [objectSentence]
  cases h.number with
  | none => exact (hstart.append (fun c hc => absurd hc List.not_mem_nil)).append inline_period
  | some n =>
    exact (hstart.append ((hopen.append (inline_decimal n)).append hclose)).append inline_period

end DocAudit
