import DocAudit.Proofs.Skeleton.Content
import Mathlib.Algebra.GroupWithZero.Nat
import Mathlib.Data.List.Forall2

/-!
# The placeholders of a skeleton

An editor looks for placeholders wherever a dollar sign stands without a backslash that takes it.
All that a skeleton repeats inside a placeholder is escaped, so that a dollar sign there is no
beginning and a brace no end. The name of a parameter stands outside the placeholders and is
escaped as markup only. So the editor finds the placeholders of the template and nothing else as
long as no such name has a bare dollar sign.

* `HasPlaceholders`: what an editor finds in a text, which is unique.
* `bareDollars`: the dollar signs that no backslash takes.
* `HasPlaceholders.begins`: each of them begins a placeholder.
* `Header.keepsPlaceholders_iff`: when the placeholders of a skeleton are those of its template.
-/

namespace DocAudit

/-! ## What an editor finds -/

/-- What an editor finds in a text: the placeholders in their order, each with the text it reads as
and its number. A backslash takes the character after it, and every dollar sign that is not taken
begins a placeholder. -/
inductive HasPlaceholders : Text → List (Text × Nat) → Prop
  | nil : HasPlaceholders [] []
  | backslash : HasPlaceholders ['\\'] []
  | plain {c : Char} {t : Text} {ps : List (Text × Nat)} (hc : c ≠ '\\' ∧ c ≠ '$')
    (h : HasPlaceholders t ps) : HasPlaceholders (c :: t) ps
  | escaped (c : Char) {t : Text} {ps : List (Text × Nat)} (h : HasPlaceholders t ps) :
    HasPlaceholders ('\\' :: c :: t) ps
  | placeholder {s default t : Text} {number : Nat} {ps : List (Text × Nat)}
    (hs : IsPlaceholder number default s) (h : HasPlaceholders t ps) :
    HasPlaceholders (s ++ t) ((default, number) :: ps)

/-- How many dollar signs of a text no backslash takes. -/
def bareDollars : Text → Nat
  | '\\' :: _ :: rest => bareDollars rest
  | '$' :: rest => bareDollars rest + 1
  | _ :: rest => bareDollars rest
  | [] => 0

/-- Whether a text ends with a backslash that takes the character after it. -/
def takesNext : Text → Bool
  | ['\\'] => true
  | '\\' :: _ :: rest => takesNext rest
  | _ :: rest => takesNext rest
  | [] => false

/-- No character of the text has a meaning to an editor. -/
def Literal (t : Text) : Prop := ∀ c ∈ t, c ≠ '\\' ∧ c ≠ '$'

section

variable {c : Char} {s t default : Text} {number : Nat} {ps qs : List (Text × Nat)}

theorem bareDollars_cons (hc : c ≠ '\\' ∧ c ≠ '$') (t : Text) :
    bareDollars (c :: t) = bareDollars t := by
  rw [bareDollars]
  · intro d rest h
    exact absurd h hc.1
  · exact hc.2

theorem takesNext_cons (hc : c ≠ '\\') (t : Text) : takesNext (c :: t) = takesNext t := by
  rw [takesNext]
  · intro h
    exact absurd h hc
  · intro d rest h
    exact absurd h hc

/-! ## Literal text -/

namespace Literal

theorem bareDollars_append (h : Literal s) (t : Text) : bareDollars (s ++ t) = bareDollars t := by
  induction s with
  | nil => rfl
  | cons c s ih =>
    rw [List.cons_append, bareDollars_cons (h c List.mem_cons_self)]
    exact ih fun d hd => h d (List.mem_cons_of_mem c hd)

theorem takesNext_append (h : Literal s) (t : Text) : takesNext (s ++ t) = takesNext t := by
  induction s with
  | nil => rfl
  | cons c s ih =>
    rw [List.cons_append, takesNext_cons (h c List.mem_cons_self).1]
    exact ih fun d hd => h d (List.mem_cons_of_mem c hd)

theorem hasPlaceholders_append (hs : Literal s) (h : HasPlaceholders t ps) :
    HasPlaceholders (s ++ t) ps := by
  induction s with
  | nil => exact h
  | cons c s ih =>
    apply HasPlaceholders.plain (hs c List.mem_cons_self)
    exact ih fun d hd => hs d (List.mem_cons_of_mem c hd)

theorem hasPlaceholders (hs : Literal s) : HasPlaceholders s [] := by
  have happend := hs.hasPlaceholders_append .nil
  rwa [List.append_nil] at happend

end Literal

theorem literal_decimal (n : Nat) : Literal (decimal n) := by
  intro c hc
  have hdigit := isDigit_of_mem_decimal hc
  constructor <;>
    · intro he
      subst he
      cases hdigit

/-! ## Guarded text -/

namespace Guarded

variable {body : Text}

theorem bareDollars_append (h : Guarded body) (t : Text) :
    bareDollars (body ++ t) = bareDollars t := by
  induction h with
  | nil => rfl
  | plain hc _ ih => rw [List.cons_append, bareDollars_cons ⟨hc.1, hc.2.1⟩, ih]
  | escaped c _ ih => rw [List.cons_append, List.cons_append, bareDollars, ih]

theorem takesNext_append (h : Guarded body) (t : Text) :
    takesNext (body ++ t) = takesNext t := by
  induction h with
  | nil => rfl
  | plain hc _ ih => rw [List.cons_append, takesNext_cons hc.1, ih]
  | escaped c _ ih => rw [List.cons_append, List.cons_append, takesNext, ih]

/-- Every dollar sign in guarded text is taken. -/
theorem takesNext_of_dollar (h : Guarded body) {before after : Text}
    (heq : body = before ++ '$' :: after) : takesNext before = true := by
  induction h generalizing before with
  | nil => simp at heq
  | plain hc _ ih =>
    cases before with
    | nil =>
      cases heq
      exact absurd rfl hc.2.1
    | cons d before =>
      cases heq
      rw [takesNext_cons hc.1]
      exact ih rfl
  | escaped c _ ih =>
    cases before with
    | nil => cases heq
    | cons d before =>
      cases before with
      | nil =>
        cases heq
        rfl
      | cons e before =>
        cases heq
        rw [takesNext]
        exact ih rfl

theorem eq_of_append_brace (h : Guarded body) {body' : Text} (h' : Guarded body') {s t : Text}
    (heq : body ++ '\x7d' :: s = body' ++ '\x7d' :: t) : body = body' ∧ s = t := by
  induction h generalizing body' with
  | nil =>
    cases h' with
    | nil => simpa using heq
    | plain hc _ =>
      cases heq
      exact absurd rfl hc.2.2
    | escaped c _ => cases heq
  | plain hc _ ih =>
    cases h' with
    | nil =>
      cases heq
      exact absurd rfl hc.2.2
    | plain hd hbody =>
      obtain ⟨hcd, htail⟩ := List.cons.inj heq
      obtain ⟨hbodies, hst⟩ := ih hbody htail
      exact ⟨by rw [hcd, hbodies], hst⟩
    | escaped d _ => exact absurd (List.cons.inj heq).1 hc.1
  | escaped c _ ih =>
    cases h' with
    | nil => cases heq
    | plain hd _ => exact absurd (List.cons.inj heq).1.symm hd.1
    | escaped d hbody =>
      obtain ⟨-, htail⟩ := List.cons.inj heq
      obtain ⟨hcd, htail⟩ := List.cons.inj htail
      obtain ⟨hbodies, hst⟩ := ih hbody htail
      exact ⟨by rw [hcd, hbodies], hst⟩

end Guarded

/-! ## Placeholders -/

theorem append_eq_append_cons_cases {d : Char} {before after : Text}
    (h : s ++ t = before ++ d :: after) :
    (∃ later, before = s ++ later ∧ t = later ++ d :: after) ∨
      ∃ rest, s = before ++ d :: rest ∧ after = rest ++ t := by
  cases List.append_eq_append_iff.1 h with
  | inl hlater => exact Or.inl hlater
  | inr hinside =>
    obtain ⟨part, hs, hpart⟩ := hinside
    cases part with
    | nil => exact Or.inl ⟨[], by simpa using hs.symm, hpart.symm⟩
    | cons e part =>
      obtain ⟨hde, hafter⟩ := List.cons.inj hpart
      exact Or.inr ⟨part, by rw [hs, hde], hafter⟩

namespace IsPlaceholder

theorem exists_eq (h : IsPlaceholder number default s) :
    ∃ body, s = '$' :: '\x7b' :: (decimal number ++ ':' :: (body ++ ['\x7d'])) ∧ Guarded body ∧
      readReferences (removeBackslashes body) = default := by
  obtain ⟨body, heq, hbody, hreads⟩ := h
  refine ⟨body, ?_, hbody, hreads⟩
  rw [heq]
  simp

theorem literal_start (number : Nat) : Literal ('\x7b' :: (decimal number ++ [':'])) := by
  intro c hc
  simp only [List.mem_cons, List.mem_append, List.not_mem_nil, or_false] at hc
  cases hc with
  | inl hc =>
    rw [hc]
    decide
  | inr hc =>
    cases hc with
    | inl hc => exact literal_decimal number c hc
    | inr hc =>
      rw [hc]
      decide

/-- A placeholder is a dollar sign, literal text, guarded text and a brace. -/
theorem exists_append_eq (h : IsPlaceholder number default s) (t : Text) :
    ∃ body, Guarded body ∧
      s ++ t = '$' :: (('\x7b' :: (decimal number ++ [':'])) ++ (body ++ '\x7d' :: t)) := by
  obtain ⟨body, heq, hbody, -⟩ := h.exists_eq
  refine ⟨body, hbody, ?_⟩
  rw [heq]
  simp

theorem bareDollars_append (h : IsPlaceholder number default s) (t : Text) :
    bareDollars (s ++ t) = bareDollars t + 1 := by
  obtain ⟨body, hbody, heq⟩ := h.exists_append_eq t
  rw [heq, bareDollars, (literal_start number).bareDollars_append, hbody.bareDollars_append,
    bareDollars_cons (by decide)]

/-- A text of which a placeholder is the beginning is not the beginning of a longer one. -/
theorem eq_of_append {s' default' t' : Text} {number' : Nat} (h : IsPlaceholder number default s)
    (h' : IsPlaceholder number' default' s') (heq : s ++ t = s' ++ t') :
    default = default' ∧ number = number' ∧ t = t' := by
  obtain ⟨body, hs, hbody, hreads⟩ := h.exists_eq
  obtain ⟨body', hs', hbody', hreads'⟩ := h'.exists_eq
  rw [hs, hs'] at heq
  simp only [List.cons_append, List.append_assoc, List.cons.injEq, true_and] at heq
  -- The colon ends the number, since it is no digit.
  have hcolon (n : Nat) (rest : Text) :
      (decimal n ++ ':' :: rest).takeWhile Char.isDigit = decimal n := by
    rw [List.takeWhile_append_of_pos fun c hc => isDigit_of_mem_decimal hc]
    simp
  have hdecimal : decimal number = decimal number' := by
    rw [← hcolon number, heq, hcolon]
  have hnumber : number = number' := decimal_injective hdecimal
  rw [hdecimal] at heq
  have hrest := List.append_cancel_left heq
  simp only [List.cons.injEq, true_and] at hrest
  obtain ⟨hbodies, htails⟩ := hbody.eq_of_append_brace hbody' hrest
  refine ⟨?_, hnumber, htails⟩
  rw [← hreads, ← hreads', hbodies]

/-- A dollar sign in a placeholder is taken, but for the first. -/
theorem takesNext_of_dollar (h : IsPlaceholder number default s) {before after : Text}
    (hne : before ≠ []) (heq : s = before ++ '$' :: after) : takesNext before = true := by
  obtain ⟨body, hs, hbody, -⟩ := h.exists_eq
  obtain ⟨d, before, rfl⟩ := List.exists_cons_of_ne_nil hne
  have hsplit : ('\x7b' :: (decimal number ++ [':'])) ++ (body ++ ['\x7d']) =
      before ++ '$' :: after := by
    rw [heq] at hs
    simpa using (List.cons.inj hs).2.symm
  have hd : d = '$' := by
    rw [heq] at hs
    exact (List.cons.inj hs).1
  rw [hd, takesNext_cons (by decide)]
  cases append_eq_append_cons_cases hsplit with
  | inl hlater =>
    obtain ⟨rest, hbefore, hrest⟩ := hlater
    rw [hbefore, (literal_start number).takesNext_append]
    cases append_eq_append_cons_cases hrest with
    | inl hbrace =>
      obtain ⟨blank, -, hbrace⟩ := hbrace
      cases blank with
      | nil => exact absurd (List.cons.inj hbrace).1 (by decide)
      | cons e blank => simp at hbrace
    | inr hinside =>
      obtain ⟨rest', hinside, -⟩ := hinside
      exact hbody.takesNext_of_dollar hinside
  | inr hstart =>
    obtain ⟨rest, hstart, -⟩ := hstart
    have hmem : '$' ∈ '\x7b' :: (decimal number ++ [':']) := by
      rw [hstart]
      simp
    exact absurd rfl (literal_start number _ hmem).2

theorem takesNext_append (h : IsPlaceholder number default s) (t : Text) :
    takesNext (s ++ t) = takesNext t := by
  obtain ⟨body, hbody, heq⟩ := h.exists_append_eq t
  rw [heq, takesNext_cons (by decide), (literal_start number).takesNext_append,
    hbody.takesNext_append, takesNext_cons (by decide)]

theorem exists_eq_cons (h : IsPlaceholder number default s) : ∃ rest, s = '$' :: rest := by
  obtain ⟨body, heq, -, -⟩ := h.exists_eq
  exact ⟨_, heq⟩

end IsPlaceholder

/-! ## What is found is unique -/

namespace HasPlaceholders

theorem of_cons (h : HasPlaceholders (c :: t) ps) (hc : c ≠ '\\' ∧ c ≠ '$') :
    HasPlaceholders t ps := by
  generalize heq : c :: t = whole at h
  cases h with
  | nil => cases heq
  | backslash => exact absurd (List.cons.inj heq).1 hc.1
  | plain _ h =>
    cases heq
    exact h
  | escaped d h => exact absurd (List.cons.inj heq).1 hc.1
  | placeholder hs h =>
    obtain ⟨rest, hs⟩ := hs.exists_eq_cons
    rw [hs] at heq
    exact absurd (List.cons.inj heq).1 hc.2

theorem of_escaped (h : HasPlaceholders ('\\' :: c :: t) ps) : HasPlaceholders t ps := by
  generalize heq : '\\' :: c :: t = whole at h
  cases h with
  | nil => cases heq
  | backslash => cases heq
  | plain hc h => exact absurd (List.cons.inj heq).1.symm hc.1
  | escaped d h =>
    cases heq
    exact h
  | placeholder hs h =>
    obtain ⟨rest, hs⟩ := hs.exists_eq_cons
    rw [hs] at heq
    cases heq

/-- **An editor finds one thing.** -/
theorem unique (h : HasPlaceholders t ps) (h' : HasPlaceholders t qs) : ps = qs := by
  induction h generalizing qs with
  | nil =>
    generalize heq : ([] : Text) = whole at h'
    cases h' with
    | nil => rfl
    | backslash => cases heq
    | plain hc h => cases heq
    | escaped d h => cases heq
    | placeholder hs h =>
      obtain ⟨rest, hs⟩ := hs.exists_eq_cons
      rw [hs] at heq
      cases heq
  | backslash =>
    generalize heq : ['\\'] = whole at h'
    cases h' with
    | nil => cases heq
    | backslash => rfl
    | plain hc h => exact absurd (List.cons.inj heq).1.symm hc.1
    | escaped d h => cases heq
    | placeholder hs h =>
      obtain ⟨rest, hs⟩ := hs.exists_eq_cons
      rw [hs] at heq
      cases heq
  | plain hc h ih => exact ih (h'.of_cons hc)
  | escaped c h ih => exact ih h'.of_escaped
  | @placeholder s default t number ps hs h ih =>
    generalize heq : s ++ t = whole at h'
    obtain ⟨rest, hrest⟩ := hs.exists_eq_cons
    cases h' with
    | nil => simp [hrest] at heq
    | backslash => simp [hrest] at heq
    | plain hc h =>
      rw [hrest] at heq
      exact absurd (List.cons.inj heq).1.symm hc.2
    | escaped d h =>
      rw [hrest] at heq
      cases heq
    | placeholder hs' h' =>
      obtain ⟨hdefault, hnumber, htail⟩ := hs.eq_of_append hs' heq
      rw [hdefault, hnumber, ih (htail ▸ h')]

/-- The placeholders are as many as the bare dollar signs. -/
theorem bareDollars_eq (h : HasPlaceholders t ps) : bareDollars t = ps.length := by
  induction h with
  | nil => rfl
  | backslash => rfl
  | plain hc _ ih => rw [bareDollars_cons hc, ih]
  | escaped c _ ih => rw [bareDollars, ih]
  | placeholder hs _ ih => rw [hs.bareDollars_append, ih, List.length_cons]

/-- **Every bare dollar sign begins a placeholder**, the first after those that are found in the
text before it. -/
theorem begins (h : HasPlaceholders t ps) {before after : Text} (heq : t = before ++ '$' :: after)
    (hbare : takesNext before = false) :
    ∃ i default number s rest, ps[i]? = some (default, number) ∧
      IsPlaceholder number default s ∧ '$' :: after = s ++ rest ∧
      HasPlaceholders before (ps.take i) := by
  induction h generalizing before with
  | nil => simp at heq
  | backslash =>
    cases before with
    | nil => cases heq
    | cons d before => simp at heq
  | plain hc _ ih =>
    cases before with
    | nil =>
      cases heq
      exact absurd rfl hc.2
    | cons d before =>
      cases heq
      rw [takesNext_cons hc.1] at hbare
      obtain ⟨i, default, number, s, rest, hi, hs, hafter, hbefore⟩ := ih rfl hbare
      exact ⟨i, default, number, s, rest, hi, hs, hafter, .plain hc hbefore⟩
  | escaped c _ ih =>
    cases before with
    | nil => cases heq
    | cons d before =>
      cases before with
      | nil =>
        cases heq
        cases hbare
      | cons e before =>
        cases heq
        rw [takesNext] at hbare
        obtain ⟨i, default, number, s, rest, hi, hs, hafter, hbefore⟩ := ih rfl hbare
        exact ⟨i, default, number, s, rest, hi, hs, hafter, .escaped c hbefore⟩
  | placeholder hs _ ih =>
    cases append_eq_append_cons_cases heq with
    | inl hlater =>
      obtain ⟨later, hbefore, htail⟩ := hlater
      rw [hbefore, hs.takesNext_append] at hbare
      obtain ⟨i, default, number, s, rest, hi, hs', hafter, hlater⟩ := ih htail hbare
      refine ⟨i + 1, default, number, s, rest, hi, hs', hafter, ?_⟩
      rw [hbefore, List.take_succ_cons]
      exact .placeholder hs hlater
    | inr hinside =>
      obtain ⟨rest, hinside, htail⟩ := hinside
      cases before with
      | nil =>
        refine ⟨0, _, _, _, _, rfl, hs, heq.symm, .nil⟩
      | cons d before =>
        rw [hs.takesNext_of_dollar (List.cons_ne_nil d before) hinside] at hbare
        cases hbare

theorem append (h : HasPlaceholders s ps) (h' : HasPlaceholders (c :: t) qs)
    (hc : c ≠ '\\' ∧ c ≠ '$') : HasPlaceholders (s ++ c :: t) (ps ++ qs) := by
  induction h with
  | nil => exact h'
  | backslash => exact .escaped c (h'.of_cons hc)
  | plain hd _ ih => exact .plain hd ih
  | escaped d _ ih => exact .escaped d ih
  | placeholder hs _ ih =>
    rw [List.append_assoc]
    exact .placeholder hs ih

end HasPlaceholders

theorem hasPlaceholders_nil_of_bareDollars (h : bareDollars t = 0) : HasPlaceholders t [] := by
  fun_induction bareDollars t with
  | case1 c rest ih => exact .escaped c (ih h)
  | case2 rest ih => simp at h
  | case3 c rest hslash hdollar ih =>
    by_cases hc : c = '\\'
    · cases rest with
      | nil =>
        rw [hc]
        exact .backslash
      | cons d rest => exact (hslash d rest hc rfl).elim
    · exact .plain ⟨hc, hdollar⟩ (ih h)
  | case4 => exact .nil

theorem bareDollars_append_cons (hc : c ≠ '\\' ∧ c ≠ '$') (s t : Text) :
    bareDollars (s ++ c :: t) = bareDollars s + bareDollars (c :: t) := by
  fun_induction bareDollars s with
  | case1 d rest ih => rw [List.cons_append, List.cons_append, bareDollars, ih]
  | case2 rest ih =>
    rw [List.cons_append, bareDollars, ih]
    omega
  | case3 d rest hslash hdollar ih =>
    by_cases hd : d = '\\'
    · cases rest with
      | nil =>
        rw [hd]
        simp [bareDollars, bareDollars_cons hc]
      | cons e rest => exact (hslash e rest hd rfl).elim
    · rw [List.cons_append, bareDollars_cons ⟨hd, hdollar⟩, ih]
  | case4 => simp

/-- The last bare dollar sign of a text has all others before it. -/
theorem exists_bareDollar {n : Nat} (h : bareDollars t = n + 1) :
    ∃ before after, t = before ++ '$' :: after ∧ takesNext before = false ∧
      bareDollars before = n := by
  fun_induction bareDollars t generalizing n with
  | case1 c rest ih =>
    obtain ⟨before, after, heq, hbare, hcount⟩ := ih h
    refine ⟨'\\' :: c :: before, after, by rw [heq]; rfl, ?_, ?_⟩
    · rw [takesNext, hbare]
    · rw [bareDollars, hcount]
  | case2 rest ih =>
    by_cases hlast : bareDollars rest = 0
    · exact ⟨[], rest, rfl, rfl, by rw [bareDollars]; omega⟩
    · obtain ⟨m, hm⟩ := Nat.exists_eq_succ_of_ne_zero hlast
      obtain ⟨before, after, heq, hbare, hcount⟩ := ih hm
      refine ⟨'$' :: before, after, by rw [heq]; rfl, ?_, ?_⟩
      · rw [takesNext_cons (by decide), hbare]
      · rw [bareDollars, hcount]
        omega
  | case3 c rest hslash hdollar ih =>
    obtain ⟨before, after, heq, hbare, hcount⟩ := ih h
    have hc : c ≠ '\\' := by
      intro hc
      cases rest with
      | nil => simp [bareDollars] at h
      | cons d rest => exact hslash d rest hc rfl
    refine ⟨c :: before, after, by rw [heq]; rfl, ?_, ?_⟩
    · rw [takesNext_cons hc, hbare]
    · rw [bareDollars_cons ⟨hc, hdollar⟩, hcount]
  | case4 => simp at h

end

/-! ## Names -/

instance decidableLiteral : DecidablePred Literal := fun t =>
  inferInstanceAs (Decidable (∀ c ∈ t, c ≠ '\\' ∧ c ≠ '$'))

theorem literal_image {c : Char} {image : Text} (h : markupImage? c = some image) :
    Literal image ∧ image ≠ [] := by
  have hall : Literal imageCharacters := by decide
  obtain ⟨name, himage, -, -⟩ := exists_of_markupImage? h
  refine ⟨fun d hd => hall d (markupImage?_subset h hd), ?_⟩
  rw [himage]
  exact List.cons_ne_nil _ _

/-- References in the place of markup characters do not change what backslashes take. -/
theorem bareDollars_escapeMarkup (t : Text) : bareDollars (escapeMarkup t) = bareDollars t := by
  fun_induction bareDollars t with
  | case1 c rest ih =>
    have hslash : markupImage? '\\' = none := by decide
    rw [escapeMarkup, escapeWith_cons, hslash, escapeWith_cons, ← escapeMarkup]
    cases hi : markupImage? c with
    | none => rw [Option.getD_none, Option.getD_none, List.singleton_append, List.singleton_append,
        bareDollars, ih]
    | some image =>
      obtain ⟨hliteral, hne⟩ := literal_image hi
      obtain ⟨d, name, rfl⟩ := List.exists_cons_of_ne_nil hne
      have hname : Literal name := fun e he => hliteral e (List.mem_cons_of_mem d he)
      rw [Option.getD_none, Option.getD_some, List.singleton_append, List.cons_append, bareDollars,
        hname.bareDollars_append, ih]
  | case2 rest ih =>
    have hdollar : markupImage? '$' = none := by decide
    rw [escapeMarkup, escapeWith_cons, hdollar, ← escapeMarkup, Option.getD_none,
      List.singleton_append, bareDollars, ih]
  | case3 c rest hslash hdollar ih =>
    by_cases hc : c = '\\'
    · cases rest with
      | nil =>
        rw [hc]
        decide
      | cons d rest => exact (hslash d rest hc rfl).elim
    · rw [escapeMarkup, escapeWith_cons, ← escapeMarkup]
      cases hi : markupImage? c with
      | none => rw [Option.getD_none, List.singleton_append, bareDollars_cons ⟨hc, hdollar⟩, ih]
      | some image => rw [Option.getD_some, (literal_image hi).1.bareDollars_append, ih]
  | case4 => rfl

/-! ## Templates -/

theorem hasPlaceholders_placeholder_append (number : Nat) (default : Text) {s : Text}
    (hs : Literal s) :
    HasPlaceholders (placeholder number default ++ s) [(default, number)] :=
  .placeholder (isPlaceholder_placeholder number default) hs.hasPlaceholders

theorem hasPlaceholders_returnLine (number : Nat) (r : ReturnClause) :
    HasPlaceholders (returnLine number r) [(returnSentence r, number)] := by
  have hopening : Literal "<returns>" := by decide
  have hclosing : Literal "</returns>" := by decide
  have hsplit : returnLine number r =
      "<returns>" ++ (placeholder number (returnSentence r) ++ "</returns>") :=
    List.append_assoc _ _ _
  rw [hsplit]
  exact hopening.hasPlaceholders_append (hasPlaceholders_placeholder_append _ _ hclosing)

/-- The text that the template asks for a parameter. -/
def typeSentence (p : ParameterClause) : Text := p.dataType ++ "."

/-- What the tag of a parameter has after the name. -/
theorem hasPlaceholders_afterName (number : Nat) (p : ParameterClause) :
    HasPlaceholders ('"' :: '>' :: (placeholder number (typeSentence p) ++ "</param>"))
      [(typeSentence p, number)] := by
  have hclosing : Literal "</param>" := by decide
  have htail := hasPlaceholders_placeholder_append number (typeSentence p) hclosing
  exact .plain (by decide) (.plain (by decide) htail)

theorem parameterLine_eq_append (number : Nat) (p : ParameterClause) :
    parameterLine number p = "<param name=\"" ++ (escapeMarkup p.name ++
      '"' :: '>' :: (placeholder number (typeSentence p) ++ "</param>")) :=
  calc parameterLine number p
    _ = "<param name=\"" ++ escapeMarkup p.name ++ "\">" ++
          (placeholder number (typeSentence p) ++ "</param>") := List.append_assoc _ _ _
    _ = "<param name=\"" ++ escapeMarkup p.name ++
          ("\">" ++ (placeholder number (typeSentence p) ++ "</param>")) :=
        List.append_assoc _ _ _
    _ = _ := List.append_assoc _ _ _

theorem bareDollars_parameterLine (number : Nat) (p : ParameterClause) :
    bareDollars (parameterLine number p) = bareDollars p.name + 1 := by
  have hopening : Literal "<param name=\"" := by decide
  rw [parameterLine_eq_append, hopening.bareDollars_append, bareDollars_append_cons (by decide),
    bareDollars_escapeMarkup, (hasPlaceholders_afterName number p).bareDollars_eq]
  rfl

theorem hasPlaceholders_parameterLine (number : Nat) {p : ParameterClause}
    (hname : bareDollars p.name = 0) :
    HasPlaceholders (parameterLine number p) [(typeSentence p, number)] := by
  have hopening : Literal "<param name=\"" := by decide
  rw [← bareDollars_escapeMarkup] at hname
  rw [parameterLine_eq_append]
  apply hopening.hasPlaceholders_append
  exact (hasPlaceholders_nil_of_bareDollars hname).append (hasPlaceholders_afterName number p)
    (by decide)

theorem hasPlaceholders_asComments {template : List Text} {pss : List (List (Text × Nat))}
    (h : List.Forall₂ HasPlaceholders template pss) :
    HasPlaceholders (asComments template) pss.flatten := by
  have hmarker : Literal "/// " := by decide
  induction h with
  | nil => exact .nil
  | @cons l ps ls pss hl hls ih =>
    have hcomment := hmarker.hasPlaceholders_append hl
    rw [asComments, List.map_cons, List.flatten_cons]
    cases hls with
    | nil => simpa [joinLines] using hcomment
    | cons hl' hls =>
      rw [List.map_cons, joinLines_cons_cons]
      exact hcomment.append (.plain (by decide) ih) (by decide)

theorem bareDollars_asComments (template : List Text) :
    bareDollars (asComments template) = (template.map bareDollars).sum := by
  have hmarker : Literal "/// " := by decide
  induction template with
  | nil => rfl
  | cons l ls ih =>
    cases ls with
    | nil =>
      rw [asComments, List.map_singleton, joinLines, List.intercalate_singleton,
        hmarker.bareDollars_append, List.map_singleton, List.sum_singleton]
    | cons l' ls =>
      rw [asComments, List.map_cons, List.map_cons] at ih
      rw [asComments, List.map_cons, List.map_cons, joinLines_cons_cons,
        bareDollars_append_cons (by decide), bareDollars_cons (by decide), ih,
        hmarker.bareDollars_append, List.map_cons, List.sum_cons]
      rfl

/-! ## Skeletons -/

namespace Header

/-- The texts that the template of a header asks for, in the order of its tags. -/
def defaults : Header → List Text
  | .object h => [objectSentence h]
  | .procedure h =>
    (h.name ++ ".") :: (h.parameters.map typeSentence ++ (h.returns.map returnSentence).toList)

/-- The parameters of a header. -/
def parameters : Header → List ParameterClause
  | .object _ => []
  | .procedure h => h.parameters

/-- Every bare dollar sign of the skeleton begins a placeholder of the template: the placeholder for
its text number `i`, which has the number `i + 1`, is found after those for the texts before. -/
def KeepsPlaceholders (h : Header) : Prop :=
  ∀ before after, h.skeleton = before ++ '$' :: after → takesNext before = false →
    ∃ i default s rest, h.defaults[i]? = some default ∧ IsPlaceholder (i + 1) default s ∧
      '$' :: after = s ++ rest ∧ HasPlaceholders before ((h.defaults.zipIdx 1).take i)

theorem forall₂_summaryLines (default : Text) :
    List.Forall₂ HasPlaceholders (summaryLines default) [[], [(default, 1)], []] := by
  have hopening : Literal "<summary>" := by decide
  have hclosing : Literal "</summary>" := by decide
  have hbody := hasPlaceholders_placeholder_append 1 default (by decide : Literal [])
  rw [List.append_nil] at hbody
  exact .cons hopening.hasPlaceholders (.cons hbody (.cons hclosing.hasPlaceholders .nil))

theorem forall₂_parameterLines {ps : List ParameterClause} (h : ∀ p ∈ ps, bareDollars p.name = 0)
    (number : Nat) :
    List.Forall₂ HasPlaceholders (parameterLines number ps)
      (((ps.map typeSentence).zipIdx number).map ([·])) := by
  induction ps generalizing number with
  | nil => exact .nil
  | cons p ps ih =>
    rw [parameterLines, List.map_cons, List.zipIdx_cons, List.map_cons]
    refine .cons (hasPlaceholders_parameterLine number (h p List.mem_cons_self)) ?_
    exact ih (fun q hq => h q (List.mem_cons_of_mem p hq)) (number + 1)

theorem forall₂_returnLine (r : Option ReturnClause) (number : Nat) :
    List.Forall₂ HasPlaceholders (r.map (returnLine number)).toList
      (((r.map returnSentence).toList.zipIdx number).map ([·])) := by
  cases r with
  | none => exact .nil
  | some r => exact .cons (hasPlaceholders_returnLine number r) .nil

/-- **Without bare dollar signs in names** a skeleton has the placeholders of its template. -/
theorem hasPlaceholders_skeleton {h : Header} (hname : ∀ p ∈ h.parameters, bareDollars p.name = 0) :
    HasPlaceholders h.skeleton (h.defaults.zipIdx 1) := by
  cases h with
  | object h => exact hasPlaceholders_asComments (forall₂_summaryLines (objectSentence h))
  | procedure h =>
    have htemplate := List.rel_append (List.rel_append (forall₂_summaryLines (h.name ++ "."))
      (forall₂_parameterLines hname 2)) (forall₂_returnLine h.returns (2 + h.parameters.length))
    have hskeleton := hasPlaceholders_asComments htemplate
    have hnumbers : (Header.procedure h).defaults.zipIdx 1 =
        (([[], [(h.name ++ ".", 1)], []] ++ ((h.parameters.map typeSentence).zipIdx 2).map ([·])) ++
          ((h.returns.map returnSentence).toList.zipIdx (2 + h.parameters.length)).map
            ([·])).flatten := by
      rw [defaults, List.zipIdx_cons, List.zipIdx_append]
      simp [← List.flatMap_def]
    rw [hnumbers]
    exact hskeleton

/-- A skeleton has a bare dollar sign for each text of its template, and those of the names. -/
theorem bareDollars_skeleton (h : Header) :
    bareDollars h.skeleton =
      h.defaults.length + (h.parameters.map (bareDollars ·.name)).sum := by
  have hsummary (default : Text) : ((summaryLines default).map bareDollars).sum = 1 :=
    (bareDollars_asComments _).symm.trans
      (hasPlaceholders_asComments (forall₂_summaryLines default)).bareDollars_eq
  rw [skeleton_eq, bareDollars_asComments]
  cases h with
  | object h => exact hsummary (objectSentence h)
  | procedure h =>
    have hparameters (ps : List ParameterClause) (number : Nat) :
        ((parameterLines number ps).map bareDollars).sum =
          ps.length + (ps.map (bareDollars ·.name)).sum := by
      induction ps generalizing number with
      | nil => rfl
      | cons p ps ih =>
        rw [parameterLines, List.map_cons, List.sum_cons, ih, bareDollars_parameterLine,
          List.map_cons, List.sum_cons, List.length_cons]
        omega
    have hreturns : (((h.returns.map (returnLine (2 + h.parameters.length))).toList).map
        bareDollars).sum = (h.returns.map returnSentence).toList.length := by
      cases h.returns with
      | none => rfl
      | some r =>
        rw [Option.map_some, Option.toList_some, List.map_singleton, List.sum_singleton,
          (hasPlaceholders_returnLine _ r).bareDollars_eq]
        rfl
    rw [skeletonLines, ProcedureHeader.skeletonLines, List.map_append, List.map_append,
      List.sum_append, List.sum_append, hsummary, hparameters, hreturns, defaults, parameters,
      List.length_cons, List.length_append, List.length_map]
    omega

theorem KeepsPlaceholders.bareDollars_le {h : Header} (hkeeps : h.KeepsPlaceholders) :
    bareDollars h.skeleton ≤ h.defaults.length := by
  cases hcount : bareDollars h.skeleton with
  | zero => exact Nat.zero_le _
  | succ n =>
    -- The last one has all others before it, each of which begins a placeholder.
    obtain ⟨before, after, heq, hbare, hbefore⟩ := exists_bareDollar hcount
    obtain ⟨i, default, s, rest, hi, -, -, hfound⟩ := hkeeps before after heq hbare
    have hlt := (List.getElem?_eq_some_iff.1 hi).1
    have hlength := hfound.bareDollars_eq
    rw [List.length_take, List.length_zipIdx, hbefore] at hlength
    omega

theorem keepsPlaceholders_of_hasPlaceholders {h : Header}
    (hfound : HasPlaceholders h.skeleton (h.defaults.zipIdx 1)) : h.KeepsPlaceholders := by
  intro before after heq hbare
  obtain ⟨i, default, number, s, rest, hi, hs, hafter, hbefore⟩ := hfound.begins heq hbare
  rw [List.getElem?_zipIdx, Option.map_eq_some_iff] at hi
  obtain ⟨default', hi, hpair⟩ := hi
  obtain ⟨hdefault, hnumber⟩ := Prod.mk.inj hpair
  refine ⟨i, default, s, rest, by rw [← hdefault, hi], ?_, hafter, hbefore⟩
  rwa [Nat.add_comm i 1, hnumber]

/-- **A skeleton has the placeholders of its template and no others exactly if no parameter has a
bare dollar sign in its name.** Then every bare dollar sign is the first character of one of them,
and an editor finds them all, numbered from one in the order of the tags, with the texts that the
template asks for, and nothing else. -/
theorem keepsPlaceholders_iff (h : Header) :
    (h.KeepsPlaceholders ↔ ∀ p ∈ h.parameters, bareDollars p.name = 0) ∧
      (h.KeepsPlaceholders → ∀ ps, HasPlaceholders h.skeleton ps ↔ ps = h.defaults.zipIdx 1) := by
  have hiff : h.KeepsPlaceholders ↔ ∀ p ∈ h.parameters, bareDollars p.name = 0 := by
    constructor
    · intro hkeeps p hp
      have hle := hkeeps.bareDollars_le
      rw [bareDollars_skeleton] at hle
      have hsum : (h.parameters.map (bareDollars ·.name)).sum = 0 := by omega
      exact List.sum_eq_zero_iff_forall_eq_nat.1 hsum _ (List.mem_map_of_mem hp)
    · intro hname
      exact keepsPlaceholders_of_hasPlaceholders (hasPlaceholders_skeleton hname)
  refine ⟨hiff, fun hkeeps ps => ?_⟩
  have hfound := hasPlaceholders_skeleton (hiff.1 hkeeps)
  constructor
  · intro hps
    exact hps.unique hfound
  · intro hps
    rw [hps]
    exact hfound

end Header

/-- A header with a parameter whose name reads like a placeholder. -/
def dollarLine : Text := "procedure Pack(\"A$\x7b9:x\x7d\": Integer)"

/-- The name is found as a placeholder with a number of its own. -/
theorem exists_not_keepsPlaceholders :
    ∃ h, Header.read? dollarLine = some h ∧ ¬ h.KeepsPlaceholders := by
  have hread : (Header.read? dollarLine).map
      (fun h => (bareDollars h.skeleton, h.defaults.length)) = some (3, 2) := by
    decide +kernel
  obtain ⟨h, hh, hcounts⟩ := Option.map_eq_some_iff.1 hread
  obtain ⟨hdollars, hdefaults⟩ := Prod.mk.inj hcounts
  refine ⟨h, hh, fun hkeeps => ?_⟩
  have hle := hkeeps.bareDollars_le
  rw [hdollars, hdefaults] at hle
  omega

end DocAudit
