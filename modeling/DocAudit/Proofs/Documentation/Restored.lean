import Mathlib.Data.String.Basic
import DocAudit.Proofs.Documentation.Prose

/-!
# Escapes taken back

The escapes of a block are recorded by their places in the escaped text. The record is exact: every
place where the image of a character starts leads back to that character, whether places are counted
in characters or in bytes, and with the escapes taken back the text is the block again. Nor is
anything escaped twice, since neither a reference nor the start of a tag is broken by what is
escaped behind it.

* `Escaped.rawByteOffset`, `rawByteOffset_escapeBefore`: places in bytes.
* `Escaped.restored`, `restored_escapeStray`: the text with its escapes taken back.
* `noStray_escapeStray`: nothing in escaped text is stray.
* `escapeStray_restorable`: all of this for every cut through a block.
-/

namespace DocAudit

open Markup

/-! ## Places in bytes -/

/-- The escapes with their places counted in bytes. What an escape adds takes one byte for each
character. -/
def Escaped.byteEscapes (e : Escaped) : List (Nat × Nat) :=
  e.escapes.map fun (place, added) => (String.utf8Len (e.text.take place), added)

/-- The place in the block, in bytes, that corresponds to a place in the escaped text, in bytes. -/
def Escaped.rawByteOffset (e : Escaped) (offset : Nat) : Nat :=
  offset - addedBefore offset e.byteEscapes

theorem utf8Len_take_lt_iff {t : Text} {p q : Nat} (hp : p ≤ t.length) (hq : q ≤ t.length) :
    String.utf8Len (t.take p) < String.utf8Len (t.take q) ↔ p < q := by
  induction t generalizing p q with
  | nil =>
    have hp0 : p = 0 := by simpa using hp
    have hq0 : q = 0 := by simpa using hq
    simp [hp0, hq0]
  | cons c t ih =>
    have hc := c.utf8Size_pos
    cases p with
    | zero => cases q <;> simp; omega
    | succ p =>
      cases q with
      | zero => simp
      | succ q =>
        have hrest := ih (Nat.le_of_succ_le_succ hp) (Nat.le_of_succ_le_succ hq)
        simp only [List.take_succ_cons, String.utf8Len_cons]
        omega

theorem place_lt_of_mem_escapes {place p added : Nat} {t : Text}
    (h : (p, added) ∈ (escapeFrom place t).escapes) :
    p < place + (escapeFrom place t).text.length := by
  induction t generalizing place with
  | nil => simp [escapeFrom] at h
  | cons c rest ih =>
    rw [escapeFrom] at h ⊢
    cases hi : strayImage? c rest with
    | none =>
      simp only [hi, Escaped.keep] at h ⊢
      have hrest := ih h
      simp only [List.length_cons]
      omega
    | some image =>
      have hpos := length_pos_of_strayImage? hi
      simp only [hi, Escaped.replace, List.mem_cons, List.length_append] at h ⊢
      rcases h with h | h
      · cases h
        omega
      · have hrest := ih h
        omega

/-- What is added before a place does not depend on how places are counted. -/
theorem addedBefore_map {f : Nat → Nat} {offset : Nat} {escapes : List (Nat × Nat)}
    (h : ∀ e ∈ escapes, f e.1 < f offset ↔ e.1 < offset) :
    addedBefore (f offset) (escapes.map fun (place, added) => (f place, added)) =
      addedBefore offset escapes := by
  induction escapes with
  | nil => rfl
  | cons e escapes ih =>
    obtain ⟨hfirst, hothers⟩ := List.forall_mem_cons.1 h
    simp only [List.map_cons, addedBefore, hfirst, ih hothers]

/-- Only ampersands and angle brackets are stray, and each has its reference. -/
theorem image_of_stray {c : Char} {rest image : Text} (h : strayImage? c rest = some image) :
    (c = '&' ∧ image = ("&amp;" : Text)) ∨ (c = '<' ∧ image = ("&lt;" : Text)) := by
  rw [strayImage?] at h
  by_cases hamp : c = '&'
  · rw [if_pos hamp] at h
    by_cases hread : (Reference.read? rest).isSome = true
    · simp [hread] at h
    · rw [if_neg hread, Option.some.injEq] at h
      exact Or.inl ⟨hamp, h.symm⟩
  · rw [if_neg hamp] at h
    by_cases hlt : c = '<'
    · by_cases hopens : opensMarkup rest = true
      · simp [hopens] at h
      · rw [if_pos hlt, if_neg hopens, Option.some.injEq] at h
        exact Or.inr ⟨hlt, h.symm⟩
    · simp [hlt] at h

theorem utf8Len_escapeBefore (s t : Text) :
    String.utf8Len (escapeBefore t s) + s.length =
      (escapeBefore t s).length + String.utf8Len s := by
  induction s with
  | nil => rfl
  | cons c s ih =>
    have himage : String.utf8Len ((strayImage? c (s ++ t)).getD [c]) + 1 =
        ((strayImage? c (s ++ t)).getD [c]).length + c.utf8Size := by
      cases hi : strayImage? c (s ++ t) with
      | none => simp [Nat.add_comm]
      | some image =>
        rcases image_of_stray hi with ⟨rfl, rfl⟩ | ⟨rfl, rfl⟩ <;> decide
    simp only [escapeBefore, String.utf8Len_append, List.length_append, String.utf8Len_cons,
      List.length_cons]
    omega

/-- **The place of a cut in bytes** is that of the cut through the block. -/
theorem rawByteOffset_escapeBefore (s t : Text) :
    (escapeStray (s ++ t)).rawByteOffset (String.utf8Len (escapeBefore t s)) =
      String.utf8Len s := by
  have htext := text_escapeStray_eq s t
  have htake : (escapeStray (s ++ t)).text.take (escapeBefore t s).length = escapeBefore t s := by
    rw [htext, List.take_left]
  have hplaces : ∀ e ∈ (escapeStray (s ++ t)).escapes,
      String.utf8Len ((escapeStray (s ++ t)).text.take e.1) <
          String.utf8Len ((escapeStray (s ++ t)).text.take (escapeBefore t s).length) ↔
        e.1 < (escapeBefore t s).length := by
    intro e he
    have hplace : e.1 < 0 + (escapeStray (s ++ t)).text.length := place_lt_of_mem_escapes he
    apply utf8Len_take_lt_iff
    · omega
    · simp [htext]
  have hadded := addedBefore_map
    (f := fun place => String.utf8Len ((escapeStray (s ++ t)).text.take place)) hplaces
  have hcharacters := addedBefore_escapeBefore 0 s t
  have hbytes := utf8Len_escapeBefore s t
  rw [Nat.zero_add] at hcharacters
  simp only [htake] at hadded
  rw [Escaped.rawByteOffset, Escaped.byteEscapes, hadded, escapeStray]
  omega

/-! ## Escapes undone -/

/-- A text with its escapes taken back, read from a place on: for each reference recorded, the
character it stands for. -/
def restoreFrom (place : Nat) : List (Nat × Nat) → Text → Text
  | [], t => t
  | (escape, added) :: escapes, t =>
    let kept := escape - place
    t.take kept ++ (decodeText? ((t.drop kept).take (added + 1))).getD [] ++
      restoreFrom (escape + (added + 1)) escapes (t.drop (kept + (added + 1)))

/-- The text with the recorded escapes taken back. -/
def Escaped.restored (e : Escaped) : Text := restoreFrom 0 e.escapes e.text

theorem decodeText?_of_strayImage? {c : Char} {rest image : Text}
    (h : strayImage? c rest = some image) : decodeText? image = some [c] := by
  rcases image_of_stray h with ⟨rfl, rfl⟩ | ⟨rfl, rfl⟩ <;> decide +kernel

/-- Text that is kept stays in front of what is restored. -/
theorem restoreFrom_escapeFrom (place : Nat) (before raw : Text) :
    restoreFrom place (escapeFrom (place + before.length) raw).escapes
      (before ++ (escapeFrom (place + before.length) raw).text) = before ++ raw := by
  induction raw generalizing place before with
  | nil => rfl
  | cons c rest ih =>
    rw [escapeFrom]
    cases hi : strayImage? c rest with
    | none =>
      have hrest := ih place (before ++ [c])
      simpa [Escaped.keep, Nat.add_assoc] using hrest
    | some image =>
      have hpos := length_pos_of_strayImage? hi
      have hlength : image.length - 1 + 1 = image.length := Nat.sub_add_cancel hpos
      have hrest := ih (place + before.length + image.length) []
      rw [List.length_nil, List.nil_append, List.nil_append, Nat.add_zero] at hrest
      simp only [Escaped.replace, restoreFrom, hlength, Nat.add_sub_cancel_left]
      rw [List.take_left, List.drop_left, List.take_left, ← List.drop_drop, List.drop_left,
        List.drop_left, hrest, decodeText?_of_strayImage? hi]
      simp

/-- **With its escapes taken back the text is the block again.** -/
theorem restored_escapeStray (raw : Text) : (escapeStray raw).restored = raw :=
  restoreFrom_escapeFrom 0 [] raw

/-! ## Nothing is escaped twice -/

/-- The next angle bracket, if it closes a tag, is that of the escaped text. -/
theorem find?_bracket_escapeStray {t : Text}
    (h : t.find? (fun d => d = '<' || d = '>') = some '>') :
    (escapeStray t).text.find? (fun d => d = '<' || d = '>') = some '>' := by
  induction t with
  | nil => simp at h
  | cons c rest ih =>
    rw [text_escapeStray_cons, List.find?_append]
    rw [List.find?_cons] at h
    cases hc : (decide (c = '<') || decide (c = '>')) with
    | true =>
      rw [hc, Option.some.injEq] at h
      rw [h, strayImage?_eq_none (by decide)]
      rfl
    | false =>
      rw [hc] at h
      have himage : ((strayImage? c rest).getD [c]).find? (fun d => d = '<' || d = '>') = none := by
        cases hi : strayImage? c rest with
        | none => simpa using hc
        | some image =>
          rcases image_of_stray hi with ⟨rfl, rfl⟩ | ⟨rfl, rfl⟩ <;> decide
      rw [himage, Option.none_or, ih h]

theorem endsTag_escapeStray {t : Text} (h : endsTag t = true) :
    endsTag (escapeStray t).text = true := by
  cases t with
  | nil => simp [endsTag] at h
  | cons c rest =>
    have hplain : c ≠ '&' ∧ c ≠ '<' := by
      constructor <;>
        · intro hc
          rw [hc] at h
          simp [endsTag, isBlank] at h
    rw [text_escapeStray_cons, strayImage?_eq_none hplain, Option.getD_none, List.singleton_append,
      endsTag_cons_iff]
    exact (endsTag_cons_iff.1 h).imp id fun hends => ⟨hends.1, find?_bracket_escapeStray hends.2⟩

/-- A character that may stay may stay in the escaped text. -/
theorem strayImage?_escapeStray {c : Char} {rest : Text} (h : strayImage? c rest = none) :
    strayImage? c (escapeStray rest).text = none := by
  rw [strayImage?] at h ⊢
  by_cases hamp : c = '&'
  · have hread : (Reference.read? rest).isSome = true := by
      simpa [hamp, Option.isSome_iff_ne_none] using h
    obtain ⟨w, after, hw, rfl, hagain⟩ := exists_word_of_reference hread
    rw [text_escapeStray_append hw.never_stray, if_pos hamp, hagain]
    rfl
  · rw [if_neg hamp]
    by_cases hlt : c = '<'
    · have hopens : opensMarkup rest = true := by simpa [hlt] using h
      obtain ⟨w, after, hw, rfl, hagain⟩ := exists_word_of_opensMarkup hopens
      rw [text_escapeStray_append hw.never_stray, if_pos hlt, hagain _ endsTag_escapeStray]
      rfl
    · rw [if_neg hlt]

/-- **Nothing in escaped text is stray.** -/
theorem noStray_escapeStray (raw : Text) : NoStray (escapeStray raw).text := by
  induction raw with
  | nil => trivial
  | cons c rest ih =>
    rw [text_escapeStray_cons]
    cases hi : strayImage? c rest with
    | none => exact ⟨strayImage?_escapeStray hi, ih⟩
    | some image =>
      rcases image_of_stray hi with ⟨-, rfl⟩ | ⟨-, rfl⟩
      · exact ⟨rfl, ih.append_left (s := "amp;") (by decide)⟩
      · exact ⟨rfl, ih.append_left (s := "lt;") (by decide)⟩

/-- **The record of the escapes is exact.** Wherever a block is cut, the images of the characters
before the cut end in the escaped text where the image of the character behind it begins; that place
leads back to the cut, in characters and in bytes. With the recorded escapes taken back the text is
the block, and escaping the text again records nothing. -/
theorem escapeStray_restorable (s t : Text) :
    (escapeStray (s ++ t)).text = escapeBefore t s ++ (escapeStray t).text ∧
      (escapeStray (s ++ t)).rawOffset (escapeBefore t s).length = s.length ∧
      (escapeStray (s ++ t)).rawByteOffset (String.utf8Len (escapeBefore t s)) =
        String.utf8Len s ∧
      (escapeStray (s ++ t)).restored = s ++ t ∧
      escapeStray (escapeStray (s ++ t)).text =
        { escapes := [], text := (escapeStray (s ++ t)).text } :=
  ⟨text_escapeStray_eq s t, rawOffset_escapeBefore s t, rawByteOffset_escapeBefore s t,
    restored_escapeStray (s ++ t), escapeStray_of_noStray (noStray_escapeStray (s ++ t))⟩

/-- Escapes next to each other, behind a character of two bytes. -/
example : (escapeStray "é&&<").byteEscapes = [(2, 4), (7, 4), (12, 3)] ∧
    (escapeStray "é&&<").rawByteOffset 7 = 3 ∧ (escapeStray "é&&<").rawByteOffset 12 = 4 := by
  decide +kernel

end DocAudit
