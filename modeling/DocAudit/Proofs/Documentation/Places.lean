import DocAudit.Proofs.Documentation.Escape

/-!
# Places in an escaped block

A block is escaped character by character, where each character is seen together with what follows
it. So a cut through the block is a cut through the escaped text, and the place of the one is
computed from the place of the other. Not every cut through the escaped text is one through the
block, since it may go through a reference; but next to a character that no reference is written
with it is.

* `escapeBefore`, `text_escapeStray_eq`: the escaped text of the start of a block.
* `referenced_escapeBefore`: nothing but references comes in.
* `rawOffset_escapeBefore`: the place of a cut.
* `exists_cut`: cuts through the escaped text.
-/

namespace DocAudit

open Markup

/-! ## Stray characters -/

theorem strayImage?_cases (c : Char) (rest : Text) :
    strayImage? c rest = none ∨ strayImage? c rest = some ("&amp;" : Text) ∨
      strayImage? c rest = some ("&lt;" : Text) := by
  rw [strayImage?]
  split
  · split
    · exact Or.inl rfl
    · exact Or.inr (Or.inl rfl)
  · split
    · split
      · exact Or.inl rfl
      · exact Or.inr (Or.inr rfl)
    · exact Or.inl rfl

theorem eq_of_strayImage? {c : Char} {rest image : Text} (h : strayImage? c rest = some image) :
    image = ("&amp;" : Text) ∨ image = ("&lt;" : Text) := by
  rcases strayImage?_cases c rest with hi | hi | hi
  · simp [hi] at h
  · exact Or.inl (Option.some.inj (h.symm.trans hi))
  · exact Or.inr (Option.some.inj (h.symm.trans hi))

theorem length_pos_of_strayImage? {c : Char} {rest image : Text}
    (h : strayImage? c rest = some image) : 0 < image.length := by
  rcases eq_of_strayImage? h with rfl | rfl <;> decide

theorem strayImage?_subset {c : Char} {rest image : Text} (h : strayImage? c rest = some image) :
    image ⊆ imageCharacters := by
  rcases eq_of_strayImage? h with rfl | rfl <;> decide

/-! ## Starts of a block -/

/-- The escaped text does not depend on what precedes it. -/
theorem text_escapeFrom (place : Nat) (t : Text) :
    (escapeFrom place t).text = (escapeStray t).text := by
  rw [escapeStray]
  generalize 0 = other
  induction t generalizing place other with
  | nil => rfl
  | cons c rest ih =>
    rw [escapeFrom, escapeFrom]
    cases strayImage? c rest with
    | none => exact congrArg (c :: ·) (ih _ _)
    | some image => exact congrArg (image ++ ·) (ih _ _)

theorem text_escapeStray_cons (c : Char) (rest : Text) :
    (escapeStray (c :: rest)).text =
      (strayImage? c rest).getD [c] ++ (escapeStray rest).text := by
  rw [escapeStray, escapeFrom]
  cases strayImage? c rest with
  | none => exact congrArg (c :: ·) (text_escapeFrom _ rest)
  | some image => exact congrArg (image ++ ·) (text_escapeFrom _ rest)

theorem text_escapeStray_append {s : Text} (hs : ∀ c ∈ s, c ≠ '&' ∧ c ≠ '<') (rest : Text) :
    (escapeStray (s ++ rest)).text = s ++ (escapeStray rest).text := by
  induction s with
  | nil => rfl
  | cons c s ih =>
    rw [List.cons_append, text_escapeStray_cons, strayImage?_eq_none (hs c List.mem_cons_self),
      ih fun d hd => hs d (List.mem_cons_of_mem c hd)]
    rfl

/-- The escaped text of the start of a block, when `after` is the rest of the block. -/
def escapeBefore (after : Text) : Text → Text
  | [] => []
  | c :: t => (strayImage? c (t ++ after)).getD [c] ++ escapeBefore after t

/-- **A cut through a block** is a cut through the escaped text. -/
theorem text_escapeStray_eq (s t : Text) :
    (escapeStray (s ++ t)).text = escapeBefore t s ++ (escapeStray t).text := by
  induction s with
  | nil => rfl
  | cons c s ih => rw [List.cons_append, text_escapeStray_cons, ih, escapeBefore, List.append_assoc]

theorem escapeBefore_nil (t : Text) : escapeBefore [] t = (escapeStray t).text := by
  have h := text_escapeStray_eq t []
  rw [List.append_nil] at h
  rw [h]
  exact (List.append_nil _).symm

theorem escapeBefore_append (after s t : Text) :
    escapeBefore after (s ++ t) = escapeBefore (t ++ after) s ++ escapeBefore after t := by
  induction s with
  | nil => rfl
  | cons c s ih =>
    rw [List.cons_append, escapeBefore, ih, escapeBefore, List.append_assoc, List.append_assoc]

theorem referenced_escapeBefore (after t : Text) : Referenced t (escapeBefore after t) := by
  induction t with
  | nil => exact Referenced.nil
  | cons c t ih =>
    refine ih.cons c fun image hi => ?_
    rcases eq_of_strayImage? hi with rfl | rfl
    · exact ⟨"amp;", rfl, by decide⟩
    · exact ⟨"lt;", rfl, by decide⟩

theorem referenced_escapeStray (t : Text) : Referenced t (escapeStray t).text := by
  rw [← escapeBefore_nil]
  exact referenced_escapeBefore [] t

/-! ## Places -/

theorem addedBefore_eq_zero {place offset : Nat} (t : Text) (h : offset ≤ place) :
    addedBefore offset (escapeFrom place t).escapes = 0 := by
  induction t generalizing place with
  | nil => rfl
  | cons c rest ih =>
    rw [escapeFrom]
    cases strayImage? c rest with
    | none => exact ih (Nat.le_succ_of_le h)
    | some image => exact if_neg (Nat.not_lt.2 h)

/-- What the escapes before a cut add is the difference between the lengths. -/
theorem addedBefore_escapeBefore (place : Nat) (s t : Text) :
    addedBefore (place + (escapeBefore t s).length) (escapeFrom place (s ++ t)).escapes +
      s.length = (escapeBefore t s).length := by
  induction s generalizing place with
  | nil => exact addedBefore_eq_zero t (Nat.le_refl place)
  | cons c s ih =>
    rw [List.cons_append, escapeFrom, escapeBefore]
    cases hi : strayImage? c (s ++ t) with
    | none =>
      have hrest := ih (place + 1)
      have hplace : place + ((escapeBefore t s).length + 1) =
          place + 1 + (escapeBefore t s).length := by omega
      simp only [Escaped.keep, Option.getD_none, List.singleton_append, List.length_cons, hplace]
      omega
    | some image =>
      have hrest := ih (place + image.length)
      have hpos := length_pos_of_strayImage? hi
      have hplace : place + (image.length + (escapeBefore t s).length) =
          place + image.length + (escapeBefore t s).length := by omega
      simp only [Escaped.replace, Option.getD_some, List.length_append, List.length_cons, hplace]
      rw [addedBefore, if_pos (by omega)]
      omega

/-- **The place of a cut** through the escaped text is the place of the cut through the block. -/
theorem rawOffset_escapeBefore (s t : Text) :
    (escapeStray (s ++ t)).rawOffset (escapeBefore t s).length = s.length := by
  have h := addedBefore_escapeBefore 0 s t
  rw [Nat.zero_add] at h
  rw [Escaped.rawOffset, escapeStray]
  omega

theorem rawOffset_length (raw : Text) :
    (escapeStray raw).rawOffset (escapeStray raw).text.length = raw.length := by
  have h := rawOffset_escapeBefore raw []
  rwa [List.append_nil, escapeBefore_nil] at h

/-! ## Cuts -/

/-- **Cuts through the escaped text.** Before a character that no reference is written with, a cut
through the escaped text is one through the block. -/
theorem exists_cut {t x y : Text} {d : Char} (hd : d ∉ imageCharacters)
    (h : (escapeStray t).text = x ++ d :: y) :
    ∃ s r, t = s ++ d :: r ∧ x = escapeBefore (d :: r) s ∧ y = (escapeStray r).text := by
  induction t generalizing x with
  | nil => simp [escapeStray, escapeFrom] at h
  | cons c t ih =>
    rw [text_escapeStray_cons] at h
    cases hi : strayImage? c t with
    | none =>
      rw [hi, Option.getD_none, List.singleton_append] at h
      cases x with
      | nil =>
        obtain ⟨rfl, rfl⟩ := List.cons.inj h
        exact ⟨[], t, rfl, rfl, rfl⟩
      | cons c' x =>
        obtain ⟨rfl, htail⟩ := List.cons.inj h
        obtain ⟨s, r, rfl, rfl, rfl⟩ := ih htail
        refine ⟨c :: s, r, rfl, ?_, rfl⟩
        rw [escapeBefore, hi]
        rfl
    | some image =>
      rw [hi, Option.getD_some] at h
      obtain ⟨x', rfl, htail⟩ : ∃ x', x = image ++ x' ∧ (escapeStray t).text = x' ++ d :: y := by
        rcases List.append_eq_append_iff.1 h with ⟨x', hx, ht⟩ | ⟨z, hz, ht⟩
        · exact ⟨x', hx, ht⟩
        · cases z with
          | nil => exact ⟨[], by simpa using hz.symm, ht.symm⟩
          | cons d' z =>
            obtain ⟨rfl, -⟩ := List.cons.inj ht
            exact absurd (strayImage?_subset hi (hz ▸ by simp)) hd
      obtain ⟨s, r, rfl, rfl, rfl⟩ := ih htail
      refine ⟨c :: s, r, rfl, ?_, rfl⟩
      rw [escapeBefore, hi]
      rfl

end DocAudit
