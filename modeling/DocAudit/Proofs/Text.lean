import DocAudit.Text.Lines
import Mathlib.Data.List.DropRight

/-!
# Case, trimming and lines

What does not depend on case, what trimming keeps, and how lines that are joined are found again.

* `toLower_congr`: what 26 letters share with their capitals is no matter of case.
* `trim_indent`: trimming takes away an indentation and nothing else.
* `lines_joinLines`, `lines_joinLines_append_lineFeed`: joined lines are read back.
* `tidy_ne_nil`: text that is not blank is not blank when it is tidied.
-/

namespace DocAudit

/-! ## Search -/

theorem has_iff_isInfix {piece t : Text} : Text.has piece t = true ↔ piece <:+: t := by
  induction t with
  | nil => rw [Text.has, List.isEmpty_iff, List.infix_nil]
  | cons c rest ih =>
    rw [Text.has, Bool.or_eq_true, List.isPrefixOf_iff_prefix, ih, List.infix_cons_iff]

theorem subset_of_has {piece t : Text} (h : Text.has piece t = true) : piece ⊆ t :=
  (has_iff_isInfix.1 h).subset

/-! ## Letters and digits -/

theorem isAlpha_iff {c : Char} :
    c.isAlpha = true ↔ (65 ≤ c.toNat ∧ c.toNat ≤ 90) ∨ (97 ≤ c.toNat ∧ c.toNat ≤ 122) := by
  have hupper : c.isUpper = decide (65 ≤ c.toNat ∧ c.toNat ≤ 90) := rfl
  have hlower : c.isLower = (decide (97 ≤ c.toNat) && decide (c.toNat ≤ 122)) := rfl
  have halpha : c.isAlpha = (c.isUpper || c.isLower) := rfl
  rw [halpha, hupper, hlower, Bool.or_eq_true, Bool.and_eq_true, decide_eq_true_eq,
    decide_eq_true_eq, decide_eq_true_eq]

theorem isDigit_iff {c : Char} : c.isDigit = true ↔ 48 ≤ c.toNat ∧ c.toNat ≤ 57 := by
  have hdigit : c.isDigit = (decide (48 ≤ c.toNat) && decide (c.toNat ≤ 57)) := rfl
  rw [hdigit, Bool.and_eq_true, decide_eq_true_eq, decide_eq_true_eq]

/-! ## ASCII case -/

/-- A character is its own lower case, or is one of 26 capitals, 32 places before the letter. -/
theorem toLower_cases (c : Char) :
    c.toLower = c ∨ ∃ i < 26, c = Char.ofNat (i + 65) ∧ c.toLower = Char.ofNat (i + 97) := by
  by_cases h : 'A'.val ≤ c.val ∧ c.val ≤ 'Z'.val
  · have hlower : c.toLower = ⟨c.val + ('a'.val - 'A'.val), _⟩ := dif_pos h
    have hlow : 65 ≤ c.toNat := UInt32.le_iff_toNat_le.1 h.1
    have hhigh : c.toNat ≤ 90 := UInt32.le_iff_toNat_le.1 h.2
    have hval : c.toLower.toNat = c.toNat + 32 := by
      rw [hlower]
      show (c.val + 32).toNat = c.val.toNat + 32
      have : c.val.toNat ≤ 90 := hhigh
      simp only [UInt32.toNat_add, UInt32.reduceToNat]
      omega
    refine Or.inr ⟨c.toNat - 65, by omega, ?_, ?_⟩
    · rw [Nat.sub_add_cancel hlow, Char.ofNat_toNat]
    · rw [show c.toNat - 65 + 97 = c.toLower.toNat by omega, Char.ofNat_toNat]
  · exact Or.inl (dif_neg h)

/-- What each of the 26 letters shares with its capital does not depend on case. -/
theorem toLower_congr {α : Type} {f : Char → α}
    (h : ∀ i < 26, f (Char.ofNat (i + 97)) = f (Char.ofNat (i + 65))) (c : Char) :
    f c.toLower = f c := by
  rcases toLower_cases c with hc | ⟨i, hi, hc, hlower⟩
  · rw [hc]
  · rw [hlower, h i hi, ← hc]

/-! ## Cuts -/

theorem splitLast_eq_none_iff {q : Char → Bool} {t : Text} :
    splitLast q t = none ↔ ∀ c ∈ t, ¬ q c = true := by
  induction t with
  | nil => exact iff_of_true rfl nofun
  | cons c rest ih =>
    rw [splitLast, List.forall_mem_cons, ← ih]
    cases splitLast q rest with
    | none => simp
    | some parts => simp

theorem splitLast_eq_some {q : Char → Bool} {t before after : Text}
    (h : splitLast q t = some (before, after)) :
    ∃ c, t = before ++ c :: after ∧ q c = true ∧ ∀ d ∈ after, ¬ q d = true := by
  induction t generalizing before with
  | nil => cases h
  | cons c rest ih =>
    rw [splitLast] at h
    cases hrest : splitLast q rest with
    | none =>
      rw [hrest] at h
      by_cases hc : q c = true
      · simp only [if_pos hc, Option.some.injEq, Prod.mk.injEq] at h
        obtain ⟨rfl, rfl⟩ := h
        exact ⟨c, rfl, hc, splitLast_eq_none_iff.1 hrest⟩
      · simp only [if_neg hc] at h
        cases h
    | some parts =>
      rw [hrest] at h
      simp only [Option.some.injEq, Prod.mk.injEq] at h
      obtain ⟨rfl, rfl⟩ := h
      obtain ⟨d, hd, hq, hafter⟩ := ih hrest
      exact ⟨d, by rw [hd, List.cons_append], hq, hafter⟩

/-! ## Decimal numbers -/

theorem decimal_eq (n : Nat) : decimal n = Nat.toDigits 10 n := Nat.toList_repr

theorem decimal_injective {m n : Nat} (h : decimal m = decimal n) : m = n := by
  have hm := @Nat.ofDigitChars_toDigits 10 m (by decide) (by decide)
  have hn := @Nat.ofDigitChars_toDigits 10 n (by decide) (by decide)
  rw [← decimal_eq] at hm hn
  rw [← hm, h, hn]

theorem isDigit_of_mem_decimal {n : Nat} {c : Char} (h : c ∈ decimal n) : c.isDigit = true := by
  rw [decimal_eq] at h
  exact Nat.isDigit_of_mem_toDigits (by decide) (by decide) h

/-! ## Trimming -/

theorem dropWhile_append_of_ne_nil {p : Char → Bool} {s : Text} (h : s.dropWhile p ≠ [])
    (t : Text) : (s ++ t).dropWhile p = s.dropWhile p ++ t := by
  induction s with
  | nil => exact absurd rfl h
  | cons c rest ih =>
    rw [List.cons_append]
    by_cases hc : p c = true
    · rw [List.dropWhile_cons_of_pos hc] at h ⊢
      rw [List.dropWhile_cons_of_pos hc]
      exact ih h
    · simp only [List.dropWhile_cons_of_neg hc, List.cons_append]

theorem takeWhile_append_of_ne_nil {p : Char → Bool} {s : Text} (h : s.dropWhile p ≠ [])
    (t : Text) : (s ++ t).takeWhile p = s.takeWhile p := by
  induction s with
  | nil => exact absurd rfl h
  | cons c rest ih =>
    rw [List.cons_append]
    by_cases hc : p c = true
    · rw [List.dropWhile_cons_of_pos hc] at h
      simp only [List.takeWhile_cons_of_pos hc, ih h]
    · simp only [List.takeWhile_cons_of_neg hc]

theorem trimLeft_append {s : Text} (h : trimLeft s ≠ []) (t : Text) :
    trimLeft (s ++ t) = trimLeft s ++ t := dropWhile_append_of_ne_nil h t

theorem length_trimLeft_le (t : Text) : (trimLeft t).length ≤ t.length :=
  length_dropWhile_le isBlank t

theorem allBlank_indentOf (t : Text) : allBlank (indentOf t) = true := List.all_takeWhile

theorem trimLeft_eq_nil_iff {t : Text} : trimLeft t = [] ↔ allBlank t = true := by
  rw [trimLeft, List.dropWhile_eq_nil_iff, allBlank, List.all_eq_true]

theorem trimLeft_blanks_append {blanks : Text} (hb : allBlank blanks = true) (t : Text) :
    trimLeft (blanks ++ t) = trimLeft t :=
  List.dropWhile_append_of_pos (List.all_eq_true.1 hb)

theorem trimLeft_eq_self {t : Text} (h : t.head?.any isBlank = false) : trimLeft t = t := by
  cases t with
  | nil => rfl
  | cons c rest =>
    have hc : isBlank c = false := h
    exact List.dropWhile_cons_of_neg (by rw [hc]; exact Bool.false_ne_true)

theorem ne_of_isBlank {c d : Char} (h : isBlank c = true) (hd : isBlank d = false) : c ≠ d := by
  rintro rfl
  rw [h] at hd
  cases hd

theorem trim_eq_nil {t : Text} (h : allBlank t = true) : trim t = [] := by
  rw [trim, trimLeft_eq_nil_iff.2 h, trimRight_nil]

theorem mem_trimLeft_iff {c : Char} {t : Text} (hc : isBlank c = false) :
    c ∈ trimLeft t ↔ c ∈ t := by
  induction t with
  | nil => exact Iff.rfl
  | cons d rest ih =>
    by_cases hd : isBlank d = true
    · have hne : c ≠ d := by
        rintro rfl
        rw [hc] at hd
        cases hd
      rw [trimLeft, List.dropWhile_cons_of_pos hd, ← trimLeft, ih, List.mem_cons,
        or_iff_right hne]
    · rw [trimLeft, List.dropWhile_cons_of_neg hd]

theorem trimLeft_subset (t : Text) : trimLeft t ⊆ t := (List.dropWhile_sublist _).subset

theorem trimRight_cons (c : Char) (rest : Text) :
    trimRight (c :: rest) =
      if trimRight rest = [] then if isBlank c then [] else [c] else c :: trimRight rest := by
  rw [trimRight]
  cases trimRight rest with
  | nil => rw [if_pos rfl]
  | cons d kept => rw [if_neg (List.cons_ne_nil d kept)]

/-- Trimming at the right takes blanks away from the end. -/
theorem exists_trimRight (t : Text) :
    ∃ blanks, allBlank blanks = true ∧ t = trimRight t ++ blanks := by
  induction t with
  | nil => exact ⟨[], rfl, rfl⟩
  | cons c rest ih =>
    obtain ⟨blanks, hb, hrest⟩ := ih
    rw [trimRight_cons]
    by_cases hnil : trimRight rest = []
    · rw [if_pos hnil]
      rw [hnil, List.nil_append] at hrest
      by_cases hc : isBlank c = true
      · rw [if_pos hc]
        refine ⟨c :: rest, ?_, rfl⟩
        rw [allBlank, List.all_cons, hc, hrest]
        exact hb
      · rw [if_neg hc]
        exact ⟨blanks, hb, by rw [hrest, List.singleton_append]⟩
    · rw [if_neg hnil]
      exact ⟨blanks, hb, by rw [List.cons_append, ← hrest]⟩

theorem length_trimRight_le (t : Text) : (trimRight t).length ≤ t.length := by
  obtain ⟨blanks, -, heq⟩ := exists_trimRight t
  have hlen := congrArg List.length heq
  rw [List.length_append] at hlen
  omega

theorem getLast?_trimRight (t : Text) : (trimRight t).getLast?.any isBlank = false := by
  induction t with
  | nil => rfl
  | cons c rest ih =>
    rw [trimRight_cons]
    by_cases hnil : trimRight rest = []
    · rw [if_pos hnil]
      by_cases hc : isBlank c = true
      · rw [if_pos hc]
        rfl
      · rw [if_neg hc]
        exact eq_false_of_ne_true hc
    · obtain ⟨d, kept, hkept⟩ := List.exists_cons_of_ne_nil hnil
      rw [if_neg hnil]
      rw [hkept] at ih ⊢
      rw [List.getLast?_cons_cons]
      exact ih

theorem trimRight_subset (t : Text) : trimRight t ⊆ t := by
  obtain ⟨blanks, -, h⟩ := exists_trimRight t
  intro c hc
  rw [h]
  exact List.mem_append_left _ hc

theorem trim_subset (t : Text) : trim t ⊆ t := fun _ hc =>
  trimLeft_subset t (trimRight_subset _ hc)

theorem mem_trim {c : Char} {t : Text} (hc : isBlank c = false) (h : c ∈ t) : c ∈ trim t := by
  obtain ⟨blanks, hb, heq⟩ := exists_trimRight (trimLeft t)
  have hmem := (mem_trimLeft_iff hc).2 h
  rw [heq] at hmem
  rcases List.mem_append.1 hmem with hmem | hmem
  · exact hmem
  · rw [List.all_eq_true.1 hb c hmem] at hc
    cases hc

theorem trimRight_eq_self {t : Text} (h : t.getLast?.any isBlank = false) : trimRight t = t := by
  induction t with
  | nil => rfl
  | cons c rest ih =>
    rw [trimRight_cons]
    cases rest with
    | nil =>
      have hc : isBlank c = false := h
      rw [trimRight_nil, if_pos rfl, hc]
      rfl
    | cons d rest =>
      rw [List.getLast?_cons_cons] at h
      rw [ih h, if_neg (List.cons_ne_nil d rest)]

theorem trimRight_append {blanks : Text} (hb : allBlank blanks = true) (t : Text) :
    trimRight (t ++ blanks) = trimRight t := by
  induction t with
  | nil => exact trimRight_eq_nil_iff.2 hb
  | cons c rest ih => rw [List.cons_append, trimRight_cons, trimRight_cons, ih]

/-- Blanks at the end do not matter to trimming at both ends. -/
theorem trim_append_allBlank {blanks : Text} (hb : allBlank blanks = true) (t : Text) :
    trim (t ++ blanks) = trim t := by
  by_cases h : trimLeft t = []
  · have ht : allBlank t = true := by
      have hindent := allBlank_indentOf t
      rwa [← List.append_nil (indentOf t), ← h, indentOf_append_trimLeft] at hindent
    have hall : allBlank (t ++ blanks) = true := by
      rw [allBlank, List.all_append, Bool.and_eq_true]
      exact ⟨ht, hb⟩
    rw [trim_eq_nil ht, trim_eq_nil hall]
  · rw [trim, trimLeft_append h, trimRight_append hb, trim]

/-- Trimming makes no piece that was not there. -/
theorem has_trimRight {piece t : Text} (h : Text.has piece t = false) :
    Text.has piece (trimRight t) = false := by
  obtain ⟨blanks, -, ht⟩ := exists_trimRight t
  rw [Bool.eq_false_iff] at h ⊢
  intro htrim
  refine h (has_iff_isInfix.2 ?_)
  rw [ht]
  exact (has_iff_isInfix.1 htrim).trans (List.prefix_append (trimRight t) blanks).isInfix

theorem trim_trimRight (t : Text) : trim (trimRight t) = trim t := by
  obtain ⟨blanks, hb, ht⟩ := exists_trimRight t
  have happend := trim_append_allBlank hb (trimRight t)
  rw [← ht] at happend
  exact happend.symm

theorem trim_trim (t : Text) : trim (trim t) = trim t :=
  calc trim (trim t) = trim (trimLeft t) := trim_trimRight (trimLeft t)
    _ = trim t := by rw [trim, trim, trimLeft, trimLeft, List.dropWhile_idempotent]

/-- **Trimming takes away an indentation**, and nothing else from text without blanks at its
ends. -/
theorem trim_indent {indent t : Text} (hi : allBlank indent = true)
    (hfirst : t.head?.any isBlank = false) (hlast : t.getLast?.any isBlank = false) :
    trim (indent ++ t) = t := by
  have hleft : trimLeft (indent ++ t) = t := by
    rw [trimLeft, List.dropWhile_append_of_pos (List.all_eq_true.1 hi)]
    cases t with
    | nil => rfl
    | cons c rest =>
      have hc : isBlank c = false := hfirst
      rw [List.dropWhile_cons_of_neg (by rw [hc]; exact Bool.false_ne_true)]
  rw [trim, hleft, trimRight_eq_self hlast]

/-- Text that is not empty and has no blanks at its ends. -/
structure Trimmed (t : Text) : Prop where
  ne_nil : t ≠ []
  first : t.head?.any isBlank = false
  last : t.getLast?.any isBlank = false

namespace Trimmed

variable {s t : Text}

/-- Trimming takes away an indentation and nothing else. -/
theorem trim_append (h : Trimmed t) {indent : Text} (hi : allBlank indent = true) :
    trim (indent ++ t) = t := trim_indent hi h.first h.last

theorem trimLeft_append (h : Trimmed t) (rest : Text) : trimLeft (t ++ rest) = t ++ rest := by
  obtain ⟨c, t', rfl⟩ := List.exists_cons_of_ne_nil h.ne_nil
  have hc : isBlank c = false := h.first
  exact List.dropWhile_cons_of_neg (by rw [hc]; exact Bool.false_ne_true)

theorem trimLeft_eq (h : Trimmed t) : trimLeft t = t := by
  have happend := h.trimLeft_append []
  rwa [List.append_nil] at happend

theorem trim_append_blanks (h : Trimmed t) {blanks : Text} (hb : allBlank blanks = true) :
    trim (t ++ blanks) = t := by
  rw [trim, h.trimLeft_append, trimRight_append hb, trimRight_eq_self h.last]

theorem trim_eq (h : Trimmed t) : trim t = t := @trim_append t h [] rfl

/-- Whatever stands between two texts without blanks at their ends. -/
theorem append (hs : Trimmed s) (middle : Text) (ht : Trimmed t) :
    Trimmed (s ++ (middle ++ t)) where
  ne_nil := fun h => hs.ne_nil (List.append_eq_nil_iff.1 h).1
  first := by
    obtain ⟨c, rest, rfl⟩ := List.exists_cons_of_ne_nil hs.ne_nil
    exact hs.first
  last := by
    rw [← List.append_assoc, List.getLast?_append, List.getLast?_eq_some_getLast ht.ne_nil,
      Option.some_or, ← List.getLast?_eq_some_getLast ht.ne_nil]
    exact ht.last

theorem allBlank_eq_false (h : Trimmed t) : allBlank t = false := by
  obtain ⟨c, rest, rfl⟩ := List.exists_cons_of_ne_nil h.ne_nil
  have hc : isBlank c = false := h.first
  rw [allBlank, List.all_cons, hc]
  rfl

/-- Text that trimming leaves as it is has no blanks at its ends. -/
theorem of_trim_eq (h : trim t = t) (hne : t ≠ []) : Trimmed t where
  ne_nil := hne
  first := by
    obtain ⟨c, rest, rfl⟩ := List.exists_cons_of_ne_nil hne
    rw [List.head?_cons, Option.any_some, Bool.eq_false_iff]
    intro hc
    -- A blank at the start makes the trimmed text shorter.
    have hshort : (trim (c :: rest)).length ≤ rest.length := by
      rw [trim, trimLeft, List.dropWhile_cons_of_pos hc]
      exact Nat.le_trans (length_trimRight_le _) (length_trimLeft_le rest)
    rw [h, List.length_cons] at hshort
    omega
  last := by
    rw [← h, trim]
    exact getLast?_trimRight _

end Trimmed

/-- Blanks, at least one. -/
structure IsGap (t : Text) : Prop where
  ne_nil : t ≠ []
  blank : allBlank t = true

theorem isGap_of_blankRun {t rest : Text} (h : blankRun t = some rest) :
    ∃ gap, IsGap gap ∧ t = gap ++ rest := by
  cases t with
  | nil => cases h
  | cons c tail =>
    rw [blankRun] at h
    split at h
    · next hc =>
      cases h
      refine ⟨c :: indentOf tail, ⟨List.cons_ne_nil _ _, ?_⟩, ?_⟩
      · rw [allBlank, List.all_cons, hc]
        exact allBlank_indentOf tail
      · rw [List.cons_append, indentOf_append_trimLeft]
    · cases h

theorem IsGap.blankRun_append {gap t : Text} (hgap : IsGap gap)
    (ht : t.head?.any isBlank = false) : blankRun (gap ++ t) = some t := by
  obtain ⟨c, rest, rfl⟩ := List.exists_cons_of_ne_nil hgap.ne_nil
  have hblank := hgap.blank
  rw [allBlank, List.all_cons, Bool.and_eq_true] at hblank
  rw [List.cons_append, blankRun, if_pos hblank.1, trimLeft_blanks_append hblank.2,
    trimLeft_eq_self ht]

/-- Trimming at the right does not touch a start without blanks. -/
theorem isPrefixOf_trimRight {start : Text} (h : ∀ c ∈ start, isBlank c = false) (t : Text) :
    start.isPrefixOf (trimRight t) = start.isPrefixOf t := by
  induction start generalizing t with
  | nil => rfl
  | cons a start ih =>
    cases t with
    | nil => rfl
    | cons c rest =>
      rw [trimRight_cons]
      have ha := h a List.mem_cons_self
      have hrest := ih (fun b hb => h b (List.mem_cons_of_mem a hb)) rest
      by_cases hac : a = c
      · subst hac
        by_cases hnil : trimRight rest = []
        · rw [hnil] at hrest
          rw [if_pos hnil, ha, if_neg Bool.false_ne_true, List.isPrefixOf_cons_cons,
            List.isPrefixOf_cons_cons, hrest]
        · simp only [if_neg hnil, List.isPrefixOf_cons_cons, hrest]
      · have hne : (a == c) = false := beq_eq_false_iff_ne.2 hac
        by_cases hnil : trimRight rest = []
        · rw [if_pos hnil]
          by_cases hc : isBlank c = true
          · rw [if_pos hc, List.isPrefixOf_cons_cons, hne]
            rfl
          · simp only [if_neg hc, List.isPrefixOf_cons_cons, hne]
            rfl
        · simp only [if_neg hnil, List.isPrefixOf_cons_cons, hne]
          rfl

/-! ## Lines -/

theorem extendFirst_cons (c : Char) (t : Text) (ls : List Text) :
    extendFirst c (t :: ls) = (c :: t) :: ls := rfl

theorem not_mem_of_mem_extendFirst {c : Char} (hc : c ≠ '\n') {ls : List Text}
    (h : ∀ l ∈ ls, '\n' ∉ l) : ∀ l ∈ extendFirst c ls, '\n' ∉ l := by
  cases ls with
  | nil =>
    intro l hl
    rw [List.mem_singleton.1 hl, List.mem_singleton]
    exact Ne.symm hc
  | cons t ls =>
    intro l hl hn
    rcases List.mem_cons.1 hl with rfl | hl
    · rcases List.mem_cons.1 hn with hn | hn
      · exact hc hn.symm
      · exact h t List.mem_cons_self hn
    · exact h l (List.mem_cons_of_mem t hl) hn

theorem not_mem_of_mem_lines {t l : Text} (h : l ∈ lines t) : '\n' ∉ l := by
  induction t generalizing l with
  | nil => cases h
  | cons c rest ih =>
    rw [lines] at h
    by_cases hc : c = '\n'
    · rw [if_pos hc] at h
      rcases List.mem_cons.1 h with rfl | h
      · exact List.not_mem_nil
      · exact ih h
    · rw [if_neg hc] at h
      by_cases hr : c = '\r' ∧ rest.head? = some '\n'
      · rw [if_pos hr] at h
        exact ih h
      · rw [if_neg hr] at h
        exact not_mem_of_mem_extendFirst hc (fun l hl => ih hl) l h

/-- Every character that ends no line stands in one. -/
theorem exists_mem_lines {c : Char} {t : Text} (h : c ∈ t) (hn : c ≠ '\n') (hr : c ≠ '\r') :
    ∃ l ∈ lines t, c ∈ l := by
  induction t with
  | nil => cases h
  | cons d rest ih =>
    have hrest (hd : c ≠ d) : ∃ l ∈ lines rest, c ∈ l :=
      ih ((List.mem_cons.1 h).resolve_left hd)
    rw [lines]
    by_cases hdn : d = '\n'
    · obtain ⟨l, hl, hc⟩ := hrest (by rw [hdn]; exact hn)
      rw [if_pos hdn]
      exact ⟨l, List.mem_cons_of_mem _ hl, hc⟩
    · rw [if_neg hdn]
      by_cases hdr : d = '\r' ∧ rest.head? = some '\n'
      · rw [if_pos hdr]
        exact hrest (by rw [hdr.1]; exact hr)
      · rw [if_neg hdr]
        by_cases hcd : c = d
        · subst hcd
          cases lines rest with
          | nil => exact ⟨[c], List.mem_singleton.2 rfl, List.mem_singleton.2 rfl⟩
          | cons t ls => exact ⟨c :: t, List.mem_cons_self, List.mem_cons_self⟩
        · obtain ⟨l, hl, hc⟩ := hrest hcd
          cases hls : lines rest with
          | nil =>
            rw [hls] at hl
            cases hl
          | cons t ls =>
            rw [hls] at hl
            rcases List.mem_cons.1 hl with rfl | hl
            · exact ⟨d :: l, List.mem_cons_self, List.mem_cons_of_mem d hc⟩
            · exact ⟨l, List.mem_cons_of_mem _ hl, hc⟩

/-- A line that may stand anywhere in a text: not empty, without a line feed, and without a carriage
return at its end, which would belong to the line end. -/
structure IsLine (l : Text) : Prop where
  ne_nil : l ≠ []
  noLineFeed : '\n' ∉ l
  noReturn : l.getLast? ≠ some '\r'

/-- A line is read up to its line feed, an empty one too. -/
theorem lines_append_lineFeed {l : Text} (hn : '\n' ∉ l) (hr : l.getLast? ≠ some '\r')
    (rest : Text) : lines (l ++ '\n' :: rest) = l :: lines rest := by
  induction l with
  | nil => rw [List.nil_append, lines, if_pos rfl]
  | cons c l ih =>
    rw [List.mem_cons, not_or] at hn
    rw [List.cons_append, lines, if_neg (Ne.symm hn.1), if_neg]
    · cases l with
      | nil => rw [List.nil_append, lines, if_pos rfl, extendFirst_cons]
      | cons d l =>
        rw [List.getLast?_cons_cons] at hr
        rw [ih hn.2 hr, extendFirst_cons]
    · rintro ⟨rfl, hhead⟩
      cases l with
      | nil => exact hr rfl
      | cons d l =>
        cases hhead
        exact hn.2 List.mem_cons_self

theorem IsLine.lines_append {l : Text} (h : IsLine l) (rest : Text) :
    lines (l ++ '\n' :: rest) = l :: lines rest :=
  lines_append_lineFeed h.noLineFeed h.noReturn rest

theorem IsLine.lines_eq {l : Text} (h : IsLine l) : lines l = [l] := by
  obtain ⟨hne, hn, hr⟩ := h
  induction l with
  | nil => exact absurd rfl hne
  | cons c l ih =>
    rw [List.mem_cons, not_or] at hn
    rw [lines, if_neg (Ne.symm hn.1), if_neg]
    · cases l with
      | nil => rfl
      | cons d l =>
        rw [List.getLast?_cons_cons] at hr
        rw [ih (List.cons_ne_nil d l) hn.2 hr, extendFirst_cons]
    · rintro ⟨-, hhead⟩
      cases l with
      | nil => cases hhead
      | cons d l =>
        cases hhead
        exact hn.2 List.mem_cons_self

theorem joinLines_cons_cons (l l' : Text) (ls : List Text) :
    joinLines (l :: l' :: ls) = l ++ '\n' :: joinLines (l' :: ls) := by
  simp only [joinLines, List.intercalate_cons_cons, List.append_assoc, List.singleton_append]

theorem joinLines_cons (l : Text) {ls : List Text} (hne : ls ≠ []) :
    joinLines (l :: ls) = l ++ '\n' :: joinLines ls := by
  obtain ⟨l', ls, rfl⟩ := List.exists_cons_of_ne_nil hne
  exact joinLines_cons_cons l l' ls

theorem joinLines_concat {ls : List Text} (hne : ls ≠ []) (l : Text) :
    joinLines (ls ++ [l]) = joinLines ls ++ '\n' :: l := by
  induction ls with
  | nil => exact absurd rfl hne
  | cons first ls ih =>
    cases ls with
    | nil =>
      rw [List.singleton_append, joinLines_cons_cons, joinLines, joinLines,
        List.intercalate_singleton, List.intercalate_singleton]
    | cons second ls =>
      rw [List.cons_append, joinLines_cons _ (List.append_ne_nil_of_left_ne_nil
        (List.cons_ne_nil second ls) [l]), ih (List.cons_ne_nil second ls), joinLines_cons_cons,
        List.append_assoc]
      rfl

theorem mem_joinLines {c : Char} {ls : List Text} (h : c ∈ joinLines ls) :
    c = '\n' ∨ ∃ l ∈ ls, c ∈ l := by
  induction ls with
  | nil => cases h
  | cons l ls ih =>
    cases ls with
    | nil =>
      rw [joinLines, List.intercalate_singleton] at h
      exact Or.inr ⟨l, List.mem_cons_self, h⟩
    | cons l' ls =>
      rw [joinLines_cons_cons, List.mem_append, List.mem_cons] at h
      rcases h with h | h | h
      · exact Or.inr ⟨l, List.mem_cons_self, h⟩
      · exact Or.inl h
      · exact (ih h).imp id fun ⟨l'', hl, hc⟩ => ⟨l'', List.mem_cons_of_mem l hl, hc⟩

/-- **Joined lines are read back.** -/
theorem lines_joinLines {ls : List Text} (h : ∀ l ∈ ls, IsLine l) : lines (joinLines ls) = ls := by
  induction ls with
  | nil => rfl
  | cons l ls ih =>
    cases ls with
    | nil =>
      rw [joinLines, List.intercalate_singleton]
      exact (h l List.mem_cons_self).lines_eq
    | cons l' ls =>
      rw [joinLines_cons_cons, (h l List.mem_cons_self).lines_append,
        ih fun l'' hl => h l'' (List.mem_cons_of_mem l hl)]

/-- Joined lines are read back, empty ones too, if a line feed ends the last of them. -/
theorem lines_joinLines_append_lineFeed {ls : List Text} (hne : ls ≠ [])
    (h : ∀ l ∈ ls, '\n' ∉ l ∧ l.getLast? ≠ some '\r') : lines (joinLines ls ++ ['\n']) = ls := by
  induction ls with
  | nil => exact absurd rfl hne
  | cons l ls ih =>
    obtain ⟨hn, hr⟩ := h l List.mem_cons_self
    cases ls with
    | nil =>
      rw [joinLines, List.intercalate_singleton, lines_append_lineFeed hn hr, lines_nil]
    | cons l' ls =>
      rw [joinLines_cons_cons, List.append_assoc, List.cons_append, lines_append_lineFeed hn hr,
        ih (List.cons_ne_nil l' ls) fun l'' hl => h l'' (List.mem_cons_of_mem l hl)]

/-- A start without a line feed ends before the next one. -/
theorem isPrefix_of_append_lineFeed {piece l rest : Text} (hp : '\n' ∉ piece)
    (h : piece <+: l ++ '\n' :: rest) : piece <+: l := by
  rcases List.prefix_or_prefix_of_prefix h (List.prefix_append l ('\n' :: rest)) with hl | ⟨u, rfl⟩
  · exact hl
  · cases u with
    | nil => simpa only [List.append_nil] using List.prefix_refl l
    | cons c u =>
      obtain ⟨rfl, -⟩ := List.cons_prefix_cons.1 ((List.prefix_append_right_inj l).1 h)
      exact absurd (List.mem_append_right l List.mem_cons_self) hp

/-- A piece without a line feed stands in one of two lines. -/
theorem has_append_lineFeed {piece l rest : Text} (hp : '\n' ∉ piece)
    (h : Text.has piece (l ++ '\n' :: rest) = true) :
    Text.has piece l = true ∨ Text.has piece rest = true := by
  simp only [has_iff_isInfix] at h ⊢
  induction l with
  | nil =>
    refine (List.infix_cons_iff.1 h).imp (fun hprefix => ?_) id
    exact (isPrefix_of_append_lineFeed hp (l := []) hprefix).isInfix
  | cons c l ih =>
    rcases List.infix_cons_iff.1 h with hprefix | hinfix
    · exact Or.inl (isPrefix_of_append_lineFeed hp (l := c :: l) hprefix).isInfix
    · exact (ih hinfix).imp (fun hl => hl.trans (List.suffix_cons c l).isInfix) id

/-- A piece without a line feed stands in joined lines only if it stands in one of them. -/
theorem has_joinLines {piece : Text} (hne : piece ≠ []) (hp : '\n' ∉ piece) {ls : List Text}
    (h : ∀ l ∈ ls, Text.has piece l = false) : Text.has piece (joinLines ls) = false := by
  induction ls with
  | nil =>
    rw [Bool.eq_false_iff]
    intro hnil
    exact hne (List.infix_nil.1 (has_iff_isInfix.1 hnil))
  | cons l ls ih =>
    have hl := h l List.mem_cons_self
    cases ls with
    | nil =>
      rw [joinLines, List.intercalate_singleton]
      exact hl
    | cons l' ls =>
      have hrest := ih fun l'' hl'' => h l'' (List.mem_cons_of_mem l hl'')
      rw [Bool.eq_false_iff] at hl hrest ⊢
      intro hjoin
      rw [joinLines_cons_cons] at hjoin
      exact (has_append_lineFeed hp hjoin).elim hl hrest

/-- Between two lines stands a line feed. -/
theorem joinLines_ne_nil_of_two_le {ls : List Text} (h : 2 ≤ ls.length) : joinLines ls ≠ [] := by
  match ls, h with
  | l :: l' :: ls, _ =>
    rw [joinLines_cons_cons]
    intro he
    exact List.cons_ne_nil _ _ (List.append_eq_nil_iff.1 he).2

/-! ## Tidying -/

/-- Every line trimmed, and the blank lines at both ends dropped: a text tidied, line by line. -/
def tidyLines (ls : List Text) : Text :=
  let trimmed := (ls.map trim).dropWhile List.isEmpty
  joinLines (trimmed.reverse.dropWhile List.isEmpty).reverse

theorem tidy_eq_tidyLines (t : Text) : tidy t = tidyLines (lines t) := rfl

/-- Blanks at the ends of lines, and an empty line before them, do not matter to tidying. -/
theorem tidyLines_nil_cons_map_trimRight (ls : List Text) :
    tidyLines ([] :: ls.map trimRight) = tidyLines ls := by
  have htrim : (ls.map trimRight).map trim = ls.map trim := by
    rw [List.map_map]
    exact List.map_congr_left fun l _ => trim_trimRight l
  rw [tidyLines, List.map_cons, trim_nil, List.dropWhile_cons_of_pos rfl, htrim]
  rfl

theorem joinLines_ne_nil {ls : List Text} {l : Text} (hl : l ∈ ls) (hne : l ≠ []) :
    joinLines ls ≠ [] := by
  induction ls with
  | nil => cases hl
  | cons l' ls ih =>
    cases ls with
    | nil =>
      rw [joinLines, List.intercalate_singleton, ← List.mem_singleton.1 hl]
      exact hne
    | cons l'' ls =>
      rw [joinLines_cons_cons]
      intro he
      exact List.cons_ne_nil _ _ (List.append_eq_nil_iff.1 he).2

theorem mem_dropWhile_isEmpty {ls : List Text} {l : Text} (hl : l ∈ ls) (hne : l ≠ []) :
    l ∈ ls.dropWhile List.isEmpty := by
  induction ls with
  | nil => cases hl
  | cons l' ls ih =>
    by_cases hl' : l'.isEmpty = true
    · rw [List.dropWhile_cons_of_pos hl']
      refine ih ((List.mem_cons.1 hl).resolve_left ?_)
      rintro rfl
      exact hne (List.isEmpty_iff.1 hl')
    · rw [List.dropWhile_cons_of_neg hl']
      exact hl

/-- Text that is not blank is not blank when it is tidied. -/
theorem tidy_ne_nil {t : Text} {c : Char} (hc : c ∈ t) (hb : isBlank c = false) :
    tidy t ≠ [] := by
  have hn : c ≠ '\n' := by
    rintro rfl
    revert hb
    decide
  have hr : c ≠ '\r' := by
    rintro rfl
    revert hb
    decide
  obtain ⟨l, hl, hcl⟩ := exists_mem_lines hc hn hr
  have hne : trim l ≠ [] := List.ne_nil_of_mem (mem_trim hb hcl)
  refine joinLines_ne_nil (l := trim l) (List.mem_reverse.2 ?_) hne
  refine mem_dropWhile_isEmpty (List.mem_reverse.2 ?_) hne
  exact mem_dropWhile_isEmpty (List.mem_map.2 ⟨l, hl, rfl⟩) hne

end DocAudit
