import DocAudit.Proofs.Source.Subset
import DocAudit.Source.Line

/-!
# Readers and the case of letters

No reader of headers looks at the case of ASCII letters: from a text in lower case it reads the
same pieces, in lower case. The reason is the same for all of them. A reader tells characters apart
by their kind, by the mark they are, or by what they fold to, and none of these changes when a
letter changes its case.

* `toLower_eq_iff`: no letter becomes a mark.
* `trim_lower`, `stripComment_lower`, `unquote_lower`: blanks, comments and quotes.
* `readFolded_lower`, `keyword?_lower`, `name?_lower`: words.
* `pieces_lower`, `closeParenthesis_lower`: separators and parentheses.
-/

namespace DocAudit

/-! ## Characters -/

section Characters

variable {c d : Char}

@[simp] theorem toLower_toLower (c : Char) : c.toLower.toLower = c.toLower :=
  toLower_congr (by decide) c

@[simp] theorem isBlank_toLower (c : Char) : isBlank c.toLower = isBlank c :=
  toLower_congr (by decide) c

@[simp] theorem isDigit_toLower (c : Char) : c.toLower.isDigit = c.isDigit :=
  toLower_congr (by decide) c

@[simp] theorem isLetter_toLower (c : Char) : isLetter c.toLower = isLetter c :=
  toLower_congr (by decide) c

@[simp] theorem startsIdentifier_toLower (c : Char) :
    startsIdentifier c.toLower = startsIdentifier c := toLower_congr (by decide) c

@[simp] theorem continuesIdentifier_toLower (c : Char) :
    continuesIdentifier c.toLower = continuesIdentifier c := toLower_congr (by decide) c

@[simp] theorem foldCase_toLower (c : Char) : foldCase c.toLower = foldCase c :=
  toLower_congr (by decide) c

@[simp] theorem isDelimiter_toLower (c : Char) : isDelimiter c.toLower = isDelimiter c :=
  toLower_congr (by decide) c

@[simp] theorem Quoting.step_toLower (q : Quoting) (c : Char) : q.step c.toLower = q.step c := by
  cases q <;> exact toLower_congr (by decide) c

/-- No letter becomes a mark, and no mark becomes anything else. -/
theorem toLower_eq_iff (hd : d.isAlpha = false) : c.toLower = d ↔ c = d := by
  rcases toLower_cases c with hc | ⟨i, hi, hc, hlower⟩
  · rw [hc]
  · have hletters : ∀ i < 26,
        (Char.ofNat (i + 65)).isAlpha = true ∧ (Char.ofNat (i + 97)).isAlpha = true := by decide
    obtain ⟨hcapital, hsmall⟩ := hletters i hi
    rw [← hc] at hcapital
    rw [← hlower] at hsmall
    constructor
    · rintro rfl
      rw [hsmall] at hd
      cases hd
    · rintro rfl
      rw [hcapital] at hd
      cases hd

@[simp] theorem bracketDepth_toLower (depth : Nat) (c : Char) :
    bracketDepth depth c.toLower = bracketDepth depth c := by
  simp only [bracketDepth, toLower_eq_iff (d := '(') rfl, toLower_eq_iff (d := ')') rfl,
    toLower_eq_iff (d := '[') rfl, toLower_eq_iff (d := ']') rfl]

end Characters

/-! ## Texts -/

section Texts

variable {p : Char → Bool} {mark : Char}

@[simp] theorem lower_nil : lower [] = [] := rfl

@[simp] theorem lower_cons (c : Char) (t : Text) : lower (c :: t) = c.toLower :: lower t := rfl

@[simp] theorem length_lower (t : Text) : (lower t).length = t.length := List.length_map _

@[simp] theorem lower_lower (t : Text) : lower (lower t) = lower t := by
  rw [lower, lower, List.map_map]
  exact List.map_congr_left fun c _ => toLower_toLower c

theorem lower_eq_nil_iff {t : Text} : lower t = [] ↔ t = [] := List.map_eq_nil_iff

@[simp] theorem isEmpty_lower (t : Text) : (lower t).isEmpty = t.isEmpty := List.isEmpty_map

theorem takeWhile_lower (hp : ∀ c, p c.toLower = p c) (t : Text) :
    (lower t).takeWhile p = lower (t.takeWhile p) := by
  rw [lower, List.takeWhile_map, show p ∘ Char.toLower = p from funext hp, ← lower]

theorem dropWhile_lower (hp : ∀ c, p c.toLower = p c) (t : Text) :
    (lower t).dropWhile p = lower (t.dropWhile p) := by
  rw [lower, List.dropWhile_map, show p ∘ Char.toLower = p from funext hp, ← lower]

theorem all_lower (hp : ∀ c, p c.toLower = p c) (t : Text) : (lower t).all p = t.all p := by
  rw [lower, List.all_map, show p ∘ Char.toLower = p from funext hp]

theorem any_lower (hp : ∀ c, p c.toLower = p c) (t : Text) : (lower t).any p = t.any p := by
  rw [lower, List.any_map, show p ∘ Char.toLower = p from funext hp]

/-- Whether a mark occurs does not depend on case. -/
theorem any_eq_lower (hm : mark.isAlpha = false) (t : Text) :
    (lower t).any (· = mark) = t.any (· = mark) :=
  @any_lower (· = mark) (fun _ => decide_eq_decide.2 (toLower_eq_iff hm)) t

theorem any_ne_lower (hm : mark.isAlpha = false) (t : Text) :
    (lower t).any (· ≠ mark) = t.any (· ≠ mark) :=
  @any_lower (· ≠ mark) (fun _ => decide_eq_decide.2 (not_congr (toLower_eq_iff hm))) t

theorem all_ne_lower (hm : mark.isAlpha = false) (t : Text) :
    (lower t).all (· ≠ mark) = t.all (· ≠ mark) :=
  @all_lower (· ≠ mark) (fun _ => decide_eq_decide.2 (not_congr (toLower_eq_iff hm))) t

theorem take_lower (n : Nat) (t : Text) : (lower t).take n = lower (t.take n) := List.map_take.symm

theorem drop_lower (n : Nat) (t : Text) : (lower t).drop n = lower (t.drop n) := List.map_drop.symm

theorem head?_lower (t : Text) : (lower t).head? = t.head?.map Char.toLower := List.head?_map

theorem getLast?_lower (t : Text) : (lower t).getLast? = t.getLast?.map Char.toLower :=
  List.getLast?_map

/-- A text in lower case has the same marks at its ends. -/
theorem map_toLower_eq_some_iff (hm : mark.isAlpha = false) {o : Option Char} :
    o.map Char.toLower = some mark ↔ o = some mark := by
  cases o with
  | none => exact iff_of_false nofun nofun
  | some c => simp only [Option.map_some, Option.some.injEq, toLower_eq_iff hm]

theorem any_isBlank_map_toLower (o : Option Char) :
    (o.map Char.toLower).any isBlank = o.any isBlank := by
  cases o with
  | none => rfl
  | some c => exact isBlank_toLower c

@[simp] theorem trimLeft_lower (t : Text) : trimLeft (lower t) = lower (trimLeft t) :=
  dropWhile_lower isBlank_toLower t

@[simp] theorem trimRight_lower (t : Text) : trimRight (lower t) = lower (trimRight t) := by
  induction t with
  | nil => rfl
  | cons c rest ih =>
    rw [lower_cons, trimRight_cons, trimRight_cons, ih, isBlank_toLower]
    simp only [lower_eq_nil_iff]
    split
    · split <;> rfl
    · rfl

@[simp] theorem trim_lower (t : Text) : trim (lower t) = lower (trim t) := by
  rw [trim, trimLeft_lower, trimRight_lower, trim]

@[simp] theorem allBlank_lower (t : Text) : allBlank (lower t) = allBlank t :=
  all_lower isBlank_toLower t

theorem blankRun_lower (t : Text) : blankRun (lower t) = (blankRun t).map lower := by
  cases t with
  | nil => rfl
  | cons c rest =>
    rw [lower_cons, blankRun, blankRun, isBlank_toLower, trimLeft_lower]
    split <;> rfl

theorem collapsePairs_lower (hm : mark.isAlpha = false) (t : Text) :
    collapsePairs mark (lower t) = lower (collapsePairs mark t) := by
  fun_induction collapsePairs mark t with
  | case1 a b rest h ih =>
    obtain ⟨rfl, rfl⟩ := h
    have hb : b.toLower = b := (toLower_eq_iff hm).2 rfl
    rw [lower_cons, lower_cons, lower_cons, hb, collapsePairs, if_pos ⟨rfl, rfl⟩, ih]
  | case2 a b rest h ih =>
    have hne : ¬ (a.toLower = mark ∧ b.toLower = mark) := by
      rwa [toLower_eq_iff hm, toLower_eq_iff hm]
    rw [lower_cons] at ih
    rw [lower_cons, lower_cons, lower_cons, collapsePairs, if_neg hne, ih]
  | case3 t ht =>
    cases t with
    | nil => rfl
    | cons a rest =>
      cases rest with
      | nil => rfl
      | cons b rest => exact absurd rfl (ht a b rest)

theorem splitFirst_lower (hp : ∀ c, p c.toLower = p c) (t : Text) :
    splitFirst p (lower t) = (splitFirst p t).map (Prod.map lower lower) := by
  induction t with
  | nil => rfl
  | cons c rest ih =>
    rw [lower_cons, splitFirst, splitFirst, hp, ih]
    split
    · rfl
    · rw [Option.map_map, Option.map_map]
      rfl

end Texts

/-! ## Quotes and comments -/

theorem stripCommentFrom_lower (q : Quoting) (t : Text) :
    stripCommentFrom q (lower t) = lower (stripCommentFrom q t) := by
  induction t generalizing q with
  | nil => rfl
  | cons c rest ih =>
    have hc : c.toLower = '/' ↔ c = '/' := toLower_eq_iff rfl
    have hnext : (lower rest).head? = some '/' ↔ rest.head? = some '/' := by
      rw [head?_lower, map_toLower_eq_some_iff rfl]
    rw [lower_cons, stripCommentFrom, stripCommentFrom, Quoting.step_toLower, ih]
    simp only [hc, hnext]
    split <;> rfl

@[simp] theorem stripComment_lower (t : Text) : stripComment (lower t) = lower (stripComment t) :=
  stripCommentFrom_lower .outside t

@[simp] theorem codeOf_lower (t : Text) : codeOf (lower t) = lower (codeOf t) := by
  rw [codeOf, stripComment_lower, trim_lower, codeOf]

theorem quotedBody_cons (c : Char) (rest : Text) :
    quotedBody (c :: rest) =
      if c = '"' ∧ rest.getLast? = some '"' then some rest.dropLast else none := by
  by_cases hc : c = '"'
  · subst hc
    simp only [quotedBody, true_and]
  · rw [quotedBody, if_neg fun h => hc h.1]
    rintro rest' ⟨⟩
    exact hc rfl

theorem quotedBody_lower (t : Text) : quotedBody (lower t) = (quotedBody t).map lower := by
  cases t with
  | nil => rfl
  | cons c rest =>
    have hc : c.toLower = '"' ↔ c = '"' := toLower_eq_iff rfl
    have hlast : (lower rest).getLast? = some '"' ↔ rest.getLast? = some '"' := by
      rw [getLast?_lower, map_toLower_eq_some_iff rfl]
    rw [lower_cons, quotedBody_cons, quotedBody_cons]
    simp only [hc, hlast]
    split
    · rw [lower, ← List.map_dropLast]
      rfl
    · rfl

@[simp] theorem unquote_lower (t : Text) : unquote (lower t) = lower (unquote t) := by
  rw [unquote, trim_lower, quotedBody_lower, unquote]
  cases quotedBody (trim t) with
  | none => rfl
  | some body => exact collapsePairs_lower rfl body

/-! ## Words -/

theorem readFolded_lower (word t : Text) :
    readFolded word (lower t) = (readFolded word t).map (Prod.map lower lower) := by
  induction word generalizing t with
  | nil => rfl
  | cons w word ih =>
    cases t with
    | nil => rw [lower_nil, readFolded, Option.map_none]
    | cons c rest =>
      rw [lower_cons, readFolded, readFolded, foldCase_toLower, ih]
      split
      · rw [Option.map_map, Option.map_map]
        rfl
      · rfl

/-- The word as it is listed does not change, the word as written does. -/
theorem keyword?_lower (words : List Text) (t : Text) :
    keyword? words (lower t) =
      (keyword? words t).map (Prod.map id (Prod.map lower lower)) := by
  rw [keyword?, keyword?, List.map_findSome?]
  congr 1
  funext word
  rw [Function.comp_apply, readFolded_lower]
  cases readFolded word t with
  | none => rfl
  | some found =>
    simp only [Option.map_some, Prod.map_snd, blankRun_lower, Option.map_map]
    rfl

theorem word?_lower (t : Text) : word? (lower t) = (word? t).map (Prod.map lower lower) := by
  cases t with
  | nil => rfl
  | cons c rest =>
    have hword := @toLower_congr Bool (fun c => isLetter c || c.isDigit) (by decide)
    rw [lower_cons, word?, word?, isLetter_toLower]
    simp only [@takeWhile_lower (fun c => isLetter c || c.isDigit) hword,
      @dropWhile_lower (fun c => isLetter c || c.isDigit) hword]
    split <;> rfl

/-- Digits have no case. -/
theorem number?_lower (t : Text) : number? (lower t) = (number? t).map (Prod.map id lower) := by
  have hdigit {c : Char} (hc : c.isDigit = true) : c.toLower = c := by
    rcases toLower_cases c with hself | ⟨i, hi, hcapital, -⟩
    · exact hself
    · have hletters : ∀ i < 26, (Char.ofNat (i + 65)).isDigit = false := by decide
      rw [hcapital, hletters i hi] at hc
      cases hc
  have hdigits : lower (t.takeWhile Char.isDigit) = t.takeWhile Char.isDigit :=
    (List.map_congr_left fun c hc =>
      hdigit (List.all_eq_true.1 List.all_takeWhile c hc)).trans (List.map_id' _)
  rw [number?, number?, takeWhile_lower isDigit_toLower, dropWhile_lower isDigit_toLower, hdigits]
  split <;> rfl

theorem identifier?_lower (t : Text) :
    identifier? (lower t) = (identifier? t).map (Prod.map lower lower) := by
  cases t with
  | nil => rfl
  | cons c rest =>
    rw [lower_cons, identifier?, identifier?, startsIdentifier_toLower,
      takeWhile_lower continuesIdentifier_toLower, dropWhile_lower continuesIdentifier_toLower]
    split <;> rfl

theorem quotedTail_lower (t : Text) :
    quotedTail (lower t) = (quotedTail t).map (Prod.map lower lower) := by
  have hquote : '"'.toLower = '"' := rfl
  fun_induction quotedTail t with
  | case1 => rfl
  | case2 rest ih =>
    simp only [lower_cons, hquote, quotedTail, if_true, ih, Option.map_map]
    rfl
  | case3 rest hrest =>
    rw [lower_cons, hquote, quotedTail]
    · rfl
    · -- A second quote in lower case is a second quote.
      intro rest' h
      cases rest with
      | nil => cases h
      | cons d rest =>
        obtain ⟨hd, -⟩ := List.cons.inj h
        obtain rfl : d = '"' := (toLower_eq_iff rfl).1 hd
        exact hrest rest rfl
  | case4 c rest hc ih =>
    have hne : ¬ c.toLower = '"' := fun h => hc ((toLower_eq_iff rfl).1 h)
    rw [lower_cons, quotedTail.eq_def (c.toLower :: lower rest)]
    simp only [if_neg hne, ih, Option.map_map]
    rfl

theorem name?_lower (t : Text) : name? (lower t) = (name? t).map (Prod.map lower lower) := by
  cases t with
  | nil => rfl
  | cons c rest =>
    rw [lower_cons, name?, name?, ← lower_cons, identifier?_lower, quotedTail_lower]
    simp only [toLower_eq_iff (d := '"') rfl]
    split
    · cases quotedTail rest with
      | none => rfl
      | some found =>
        obtain ⟨seen, after⟩ := found
        have hempty : lower seen = ['"'] ↔ seen = ['"'] := by
          rw [lower, List.map_eq_singleton_iff]
          constructor
          · rintro ⟨d, rfl, hd⟩
            rw [(toLower_eq_iff rfl).1 hd]
          · rintro rfl
            exact ⟨'"', rfl, rfl⟩
        simp only [Option.map_some, Prod.map_apply, hempty]
        split
        · rfl
        · rfl
    · rfl

/-! ## Separators and parentheses -/

theorem extendFirst_lower (c : Char) (ls : List Text) :
    extendFirst c.toLower (ls.map lower) = (extendFirst c ls).map lower := by
  cases ls <;> rfl

/-- A separator that is no letter separates the same pieces. -/
theorem pieces_lower {separator : Char} (hs : separator.isAlpha = false) (q : Quoting)
    (depth : Nat) (t : Text) :
    pieces separator q depth (lower t) = (pieces separator q depth t).map lower := by
  induction t generalizing q depth with
  | nil => rfl
  | cons c rest ih =>
    rw [lower_cons, pieces, pieces, Quoting.step_toLower, bracketDepth_toLower, isDelimiter_toLower,
      ih, ih]
    simp only [toLower_eq_iff hs, extendFirst_lower]
    split <;> rfl

theorem splitTopLevel_lower {separator : Char} (hs : separator.isAlpha = false) (t : Text) :
    splitTopLevel separator (lower t) = (splitTopLevel separator t).map lower := by
  have hblank : allBlank ∘ lower = allBlank := funext allBlank_lower
  rw [splitTopLevel, splitTopLevel, pieces_lower hs, List.all_map, hblank]
  split <;> rfl

theorem closeParenthesis_lower (q : Quoting) (depth : Nat) (t : Text) :
    closeParenthesis q depth (lower t) =
      (closeParenthesis q depth t).map (Prod.map lower lower) := by
  induction t generalizing q depth with
  | nil => rfl
  | cons c rest ih =>
    rw [lower_cons, closeParenthesis.eq_def, closeParenthesis.eq_def q depth (c :: rest)]
    simp only [toLower_eq_iff (d := '(') rfl, toLower_eq_iff (d := ')') rfl, Quoting.step_toLower,
      ih]
    split
    · cases depth with
      | zero => rfl
      | succ depth =>
        simp only [Option.map_map]
        rfl
    · rw [Option.map_map, Option.map_map]
      rfl

end DocAudit
