/-!
# Text

Text is a list of characters, so every reader in this library is a recursion on what is left
to read. This file holds the operations that know nothing about blanks or lines:

* `lower`, `sameWord`: ASCII letters compared without regard to case.
* `Text.has`, `collapsePairs`, `escapeWith`: search and replacement.
* `cutAt`: a text cut around the first occurrence of another.
* `splitFirst`, `splitLast`, `splitAll`: a text cut at the first, the last or every character of a
  kind; `extendFirst` is the step by which splitters build their first piece.
-/

namespace DocAudit

/-- A text as the list of its characters. -/
abbrev Text := List Char

/-- A string literal may stand where a text is expected. -/
instance : Coe String Text := ⟨String.toList⟩

/-- What is said of every member of a list is decided member by member, however large the type. -/
instance (priority := high) decidableForallMem {α : Type} (l : List α) (P : α → Prop)
    [DecidablePred P] : Decidable (∀ a ∈ l, P a) := List.decidableBAll P l

/-! ## ASCII case -/

/-- The text with its ASCII capitals in lower case; every other character stays. -/
def lower (t : Text) : Text := t.map Char.toLower

/-- Two words are the same when they differ in ASCII case only. -/
def sameWord (a b : Text) : Bool := lower a == lower b

theorem sameWord_iff {a b : Text} : sameWord a b = true ↔ lower a = lower b := by
  simp [sameWord]

@[simp] theorem sameWord_refl (a : Text) : sameWord a a = true := by simp [sameWord]

/-! ## Search and replacement -/

/-- Whether `piece` occurs in the text. -/
def Text.has (piece : Text) : Text → Bool
  | [] => piece.isEmpty
  | c :: rest => piece.isPrefixOf (c :: rest) || Text.has piece rest

theorem length_dropWhile_le (p : Char → Bool) (t : Text) : (t.dropWhile p).length ≤ t.length :=
  (List.dropWhile_sublist p).length_le

theorem eq_of_isPrefixOf? {start t after : Text} (h : start.isPrefixOf? t = some after) :
    t = start ++ after := by
  induction start generalizing t with
  | nil =>
    have : some t = some after := h
    exact Option.some.inj this
  | cons a as ih =>
    cases t with
    | nil =>
      have : none = some after := h
      cases this
    | cons c rest =>
      have : (if a == c then as.isPrefixOf? rest else none) = some after := h
      by_cases hc : a = c
      · subst hc
        rw [if_pos (beq_self_eq_true a)] at this
        rw [ih this, List.cons_append]
      · rw [if_neg (mt beq_iff_eq.1 hc)] at this
        cases this

/-- Each pair of adjacent characters `mark` becomes one, read from the left. -/
def collapsePairs (mark : Char) : Text → Text
  | a :: b :: rest =>
    if a = mark ∧ b = mark then mark :: collapsePairs mark rest
    else a :: collapsePairs mark (b :: rest)
  | t => t

/-- Each character replaced by its image, all others kept. -/
def escapeWith (image : Char → Option Text) (t : Text) : Text :=
  t.flatMap fun c => (image c).getD [c]

@[simp] theorem escapeWith_nil (image : Char → Option Text) : escapeWith image [] = [] := rfl

@[simp] theorem escapeWith_cons (image : Char → Option Text) (c : Char) (t : Text) :
    escapeWith image (c :: t) = (image c).getD [c] ++ escapeWith image t := rfl

/-! ## Cutting at one character -/

/-- The parts before and after the first character that satisfies `p`; none without one. -/
def splitFirst (p : Char → Bool) : Text → Option (Text × Text)
  | [] => none
  | c :: rest =>
    if p c then some ([], rest)
    else (splitFirst p rest).map fun (before, after) => (c :: before, after)

/-- The parts before and after the last character that satisfies `p`; none without one. -/
def splitLast (p : Char → Bool) : Text → Option (Text × Text)
  | [] => none
  | c :: rest =>
    match splitLast p rest with
    | some (before, after) => some (c :: before, after)
    | none => if p c then some ([], rest) else none

/-- The first of some texts continued to the left by a character; a text of its own without one. -/
def extendFirst (c : Char) : List Text → List Text
  | [] => [[c]]
  | t :: rest => (c :: t) :: rest

/-- The parts between the characters that satisfy `p`; there is always a first part. -/
def splitAll (p : Char → Bool) : Text → List Text
  | [] => [[]]
  | c :: rest => if p c then [] :: splitAll p rest else extendFirst c (splitAll p rest)

/-- The parts before and after the first occurrence of `mark`; none without one. -/
def cutAt (mark : Text) : Text → Option (Text × Text)
  | [] => (mark.isPrefixOf? []).map ([], ·)
  | c :: rest =>
    match mark.isPrefixOf? (c :: rest) with
    | some after => some ([], after)
    | none => (cutAt mark rest).map fun (before, after) => (c :: before, after)

/-- Cutting takes nothing away but the mark. -/
theorem eq_of_cutAt {mark t before after : Text} (h : cutAt mark t = some (before, after)) :
    t = before ++ mark ++ after := by
  induction t generalizing before with
  | nil =>
    simp only [cutAt, Option.map_eq_some_iff, Prod.mk.injEq] at h
    obtain ⟨a, ha, rfl, rfl⟩ := h
    simpa using eq_of_isPrefixOf? ha
  | cons c rest ih =>
    simp only [cutAt] at h
    split at h
    · next a ha =>
      simp only [Option.some.injEq, Prod.mk.injEq] at h
      obtain ⟨rfl, rfl⟩ := h
      simpa using eq_of_isPrefixOf? ha
    · simp only [Option.map_eq_some_iff, Prod.mk.injEq] at h
      obtain ⟨⟨b, a⟩, hb, rfl, rfl⟩ := h
      simp [ih hb]

/-- The text of a natural number in decimal digits. -/
def decimal (n : Nat) : Text := (toString n).toList

end DocAudit
