import DocAudit.Proofs.Source.Nesting
import DocAudit.Proofs.Source.ProcedureHeader

/-!
# Names as they are written

A name in a header is an identifier or stands in double quotes, where it may hold every separator,
bracket and comment mark there is.

* `Spells`: the ways in which a header may spell a name.
* `name?_eq_some`: every name that is read is spelled in one of them.
* `WrittenName`: a name together with how it is written.
* `name?_written`, `unquote_written`: a written name is read back.
* `passable_written`, `hides_written`: every other reader passes over it.
-/

namespace DocAudit

/-- A character of an identifier in ASCII. -/
def inIdentifier (c : Char) : Bool := c.isAlphanum || c = '_'

/-- Whether a text is an identifier in ASCII, which does not start with a digit. -/
def isIdentifier (t : Text) : Bool := t.head?.any (!Char.isDigit ·) && t.all inIdentifier

/-- The text with each double quote doubled. -/
def doubleQuotes (t : Text) : Text :=
  escapeWith (fun c => if c = '"' then some ['"', '"'] else none) t

/-- A name and how it is written: as an identifier, or as any other text in double quotes. -/
inductive WrittenName
  | identifier (t : Text) (h : isIdentifier t = true)
  | quoted (t : Text) (hne : t ≠ []) (hline : '\n' ∉ t)

/-- The name itself. -/
def WrittenName.value : WrittenName → Text
  | .identifier t _ => t
  | .quoted t _ _ => t

/-- The name as it is written. -/
def WrittenName.written : WrittenName → Text
  | .identifier t _ => t
  | .quoted t _ _ => '"' :: (doubleQuotes t ++ ['"'])

variable {c d : Char} {t : Text}

/-! ## Identifiers -/

theorem ne_of_inIdentifier (h : inIdentifier c = true) (hd : inIdentifier d = false) : c ≠ d := by
  rintro rfl
  rw [h] at hd
  cases hd

theorem isBlank_of_inIdentifier (h : inIdentifier c = true) : isBlank c = false := by
  rw [inIdentifier, Bool.or_eq_true, decide_eq_true_eq] at h
  rcases h with h | rfl
  · rw [Bool.eq_false_iff]
    intro hb
    simp only [isBlank, Bool.or_eq_true, Bool.and_eq_true, decide_eq_true_eq, beq_iff_eq] at hb
    rw [Char.isAlphanum, Bool.or_eq_true, isAlpha_iff, isDigit_iff] at h
    omega
  · decide

theorem isDelimiter_of_inIdentifier (h : inIdentifier c = true) : isDelimiter c = false := by
  simp only [isDelimiter, Bool.or_eq_false_iff, decide_eq_false_iff_not]
  refine ⟨⟨⟨⟨⟨?_, ?_⟩, ?_⟩, ?_⟩, ?_⟩, ?_⟩ <;> exact ne_of_inIdentifier h (by decide)

theorem continuesIdentifier_of_inIdentifier (h : inIdentifier c = true) :
    continuesIdentifier c = true := by
  rw [inIdentifier, Char.isAlphanum] at h
  simp only [continuesIdentifier, startsIdentifier, isLetter, Bool.or_eq_true] at h ⊢
  rcases h with (h | h) | h
  · exact Or.inl (Or.inl (Or.inl (Or.inl h)))
  · exact Or.inr h
  · exact Or.inl (Or.inr h)

theorem startsIdentifier_of_inIdentifier (h : inIdentifier c = true) (hd : c.isDigit = false) :
    startsIdentifier c = true := by
  have hcontinues := continuesIdentifier_of_inIdentifier h
  rw [continuesIdentifier, hd, Bool.or_false] at hcontinues
  exact hcontinues

theorem inIdentifier_of_isIdentifier (h : isIdentifier t = true) :
    ∀ c ∈ t, inIdentifier c = true := by
  rw [isIdentifier, Bool.and_eq_true] at h
  exact List.all_eq_true.1 h.2

/-- A blank ends every identifier. -/
theorem continuesIdentifier_of_isBlank (h : isBlank c = true) : continuesIdentifier c = false := by
  rw [Bool.eq_false_iff]
  intro hc
  have hplain : inIdentifier c = true ∨ c = '\u017f' ∨ c = '\u212a' := by
    simp only [continuesIdentifier, startsIdentifier, isLetter, inIdentifier, Char.isAlphanum,
      Bool.or_eq_true, decide_eq_true_eq] at hc ⊢
    tauto
  rcases hplain with hplain | rfl | rfl
  · rw [isBlank_of_inIdentifier hplain] at h
    cases h
  · revert h
    decide
  · revert h
    decide

/-- Text made of words. -/
def IsWords (t : Text) : Prop := ∀ c ∈ t, inIdentifier c = true ∨ c = ' '

namespace IsWords

theorem passable (h : IsWords t) : Passable t := .of_plain fun c hc => by
  rcases h c hc with hc | rfl
  · exact ⟨isDelimiter_of_inIdentifier hc, ne_of_inIdentifier hc (by decide)⟩
  · decide

theorem hides (h : IsWords t) (hd : inIdentifier d = false) (hblank : d ≠ ' ') :
    ({} : Nesting).Hides d t := Nesting.hides_of_not_mem fun hmem => by
  rcases h d hmem with hc | hc
  · rw [hd] at hc
    cases hc
  · exact hblank hc

theorem of_isIdentifier (h : isIdentifier t = true) : IsWords t := fun c hc =>
  Or.inl (inIdentifier_of_isIdentifier h c hc)

end IsWords

/-! ## Quoted names -/

@[simp] theorem doubleQuotes_nil : doubleQuotes [] = [] := rfl

theorem doubleQuotes_quote (t : Text) :
    doubleQuotes ('"' :: t) = '"' :: '"' :: doubleQuotes t := rfl

theorem doubleQuotes_cons (hc : c ≠ '"') (t : Text) :
    doubleQuotes (c :: t) = c :: doubleQuotes t := by
  rw [doubleQuotes, escapeWith_cons, if_neg hc]
  rfl

theorem collapsePairs_doubleQuotes (t : Text) : collapsePairs '"' (doubleQuotes t) = t := by
  induction t with
  | nil => rfl
  | cons c t ih =>
    by_cases hc : c = '"'
    · rw [hc, doubleQuotes_quote, collapsePairs, if_pos ⟨rfl, rfl⟩, ih]
    · rw [doubleQuotes_cons hc]
      cases hd : doubleQuotes t with
      | nil =>
        rw [hd] at ih
        rw [← ih]
        rfl
      | cons d rest =>
        rw [hd] at ih
        rw [collapsePairs, if_neg fun h => hc h.1, ih]

theorem quotedTail_doubleQuotes (t : Text) {rest : Text} (hrest : rest.head? ≠ some '"') :
    quotedTail (doubleQuotes t ++ '"' :: rest) = some (doubleQuotes t ++ ['"'], rest) := by
  induction t with
  | nil =>
    rw [doubleQuotes_nil, List.nil_append, quotedTail]
    · rfl
    · rintro rest' rfl
      exact hrest rfl
  | cons c t ih =>
    by_cases hc : c = '"'
    · rw [hc, doubleQuotes_quote]
      simp only [List.cons_append, quotedTail, if_true, ih, Option.map_some]
    · rw [doubleQuotes_cons hc, List.cons_append]
      unfold quotedTail
      rw [if_neg hc, ih]
      rfl

theorem doubleQuotes_ne_nil (h : t ≠ []) : doubleQuotes t ≠ [] := by
  cases t with
  | nil => exact absurd rfl h
  | cons c t =>
    by_cases hc : c = '"'
    · rw [hc, doubleQuotes_quote]
      exact List.cons_ne_nil _ _
    · rw [doubleQuotes_cons hc]
      exact List.cons_ne_nil _ _

theorem mem_of_mem_doubleQuotes (h : c ∈ doubleQuotes t) : c ∈ t := by
  obtain ⟨d, hd, hc⟩ := List.mem_flatMap.1 h
  have heq : c = d := by
    by_cases hquote : d = '"'
    · rw [hquote] at hc ⊢
      exact (List.mem_cons.1 hc).elim id List.mem_singleton.1
    · simp only [if_neg hquote] at hc
      exact List.mem_singleton.1 hc
  rw [heq]
  exact hd

/-- Inside double quotes. -/
def insideQuotes : Nesting := { quoting := .double }

theorem step?_insideQuotes (hc : c ≠ '"') : insideQuotes.step? c = some insideQuotes := by
  simp only [Nesting.step?, insideQuotes, Quoting.step, hc, reduceCtorEq, false_and, if_false]

theorem after?_doubleQuotes (t : Text) :
    insideQuotes.after? (doubleQuotes t) = some insideQuotes := by
  induction t with
  | nil => rfl
  | cons c t ih =>
    by_cases hc : c = '"'
    · rw [hc, doubleQuotes_quote]
      exact ih
    · rw [doubleQuotes_cons hc, Nesting.after?_cons, step?_insideQuotes hc]
      exact ih

theorem hides_doubleQuotes (hd : d ≠ '"') (t : Text) :
    insideQuotes.Hides d (doubleQuotes t) := by
  induction t with
  | nil => exact Nesting.hides_of_not_mem List.not_mem_nil
  | cons c t ih =>
    by_cases hc : c = '"'
    · -- The reader leaves the quotes and enters them again.
      rw [hc, doubleQuotes_quote]
      refine Nesting.hides_cons.2 ⟨fun h => hd h.1.symm, fun m hm => ?_⟩
      cases hm
      refine Nesting.hides_cons.2 ⟨fun h => hd h.1.symm, fun m' hm' => ?_⟩
      cases hm'
      exact ih
    · rw [doubleQuotes_cons hc]
      refine Nesting.hides_cons.2 ⟨fun h => absurd h.2 (by decide), fun m hm => ?_⟩
      rw [step?_insideQuotes hc] at hm
      cases hm
      exact ih

theorem commentFree_doubleQuotes (t : Text) : CommentFree .double (doubleQuotes t) := by
  induction t with
  | nil => exact commentFree_of_not_mem List.not_mem_nil
  | cons c t ih =>
    by_cases hc : c = '"'
    · rw [hc, doubleQuotes_quote]
      have htail : CommentFree .outside ('"' :: doubleQuotes t) :=
        commentFree_cons.2 ⟨fun h => absurd h.2.1 (by decide), ih⟩
      exact commentFree_cons.2 ⟨fun h => absurd h.1 (by decide), htail⟩
    · rw [doubleQuotes_cons hc]
      refine commentFree_cons.2 ⟨fun h => absurd h.1 (by decide), ?_⟩
      rw [Quoting.step, if_neg hc]
      exact ih

/-! ## Spellings -/

theorem trimmed_of_forall (hne : t ≠ []) (h : ∀ c ∈ t, isBlank c = false) : Trimmed t where
  ne_nil := hne
  first := by
    cases hc : t.head? with
    | none => rfl
    | some c => exact h c (List.mem_of_head? hc)
  last := by
    cases hc : t.getLast? with
    | none => rfl
    | some c => exact h c (List.mem_of_getLast? hc)

/-- A text spells a name as an identifier, or in double quotes with every quote inside doubled. -/
inductive Spells : Text → Text → Prop
  | identifier {c : Char} {rest : Text} (hstart : startsIdentifier c = true)
      (hrest : ∀ d ∈ rest, continuesIdentifier d = true) : Spells (c :: rest) (c :: rest)
  | quoted {name : Text} (hne : name ≠ []) : Spells ('"' :: (doubleQuotes name ++ ['"'])) name

namespace Spells

variable {written name : Text}

/-- A spelled name is read where it stands, if what follows does not go on with it. -/
theorem name?_append (h : Spells written name) {rest : Text}
    (hrest : ∀ c ∈ rest.head?, continuesIdentifier c = false ∧ c ≠ '"') :
    name? (written ++ rest) = some (written, rest) := by
  cases h with
  | @identifier c tail hstart htail =>
    have hc : c ≠ '"' := by
      rintro rfl
      exact absurd hstart (by decide)
    have hstop : rest.takeWhile continuesIdentifier = [] ∧
        rest.dropWhile continuesIdentifier = rest := by
      cases rest with
      | nil => exact ⟨rfl, rfl⟩
      | cons d rest =>
        have hd : ¬ continuesIdentifier d = true := by
          rw [(hrest d rfl).1]
          exact Bool.false_ne_true
        exact ⟨List.takeWhile_cons_of_neg hd, List.dropWhile_cons_of_neg hd⟩
    rw [List.cons_append, name?, if_neg hc, identifier?, if_pos hstart,
      List.takeWhile_append_of_pos htail, List.dropWhile_append_of_pos htail, hstop.1, hstop.2,
      List.append_nil]
  | quoted hne =>
    have hseen : doubleQuotes name ++ ['"'] ≠ ['"'] := fun heq =>
      doubleQuotes_ne_nil hne (List.append_left_eq_self.1 heq)
    have hhead : rest.head? ≠ some '"' := fun hq => (hrest '"' hq).2 rfl
    rw [List.cons_append, List.append_assoc, List.singleton_append, name?, if_pos rfl,
      quotedTail_doubleQuotes name hhead]
    simp only [if_neg hseen]

theorem trimmed (h : Spells written name) : Trimmed written := by
  cases h with
  | @identifier c tail hstart htail =>
    have hplain {d : Char} (hd : continuesIdentifier d = true) : isBlank d = false := by
      rw [Bool.eq_false_iff]
      intro hblank
      rw [continuesIdentifier_of_isBlank hblank] at hd
      cases hd
    refine trimmed_of_forall (List.cons_ne_nil c tail) (List.forall_mem_cons.2 ⟨hplain ?_, ?_⟩)
    · rw [continuesIdentifier, hstart, Bool.true_or]
    · exact fun d hd => hplain (htail d hd)
  | quoted hne =>
    refine ⟨List.cons_ne_nil _ _, rfl, ?_⟩
    rw [← List.cons_append, List.getLast?_concat]
    rfl

/-- Without its quotes a spelled name is the name. -/
theorem unquote_eq (h : Spells written name) : unquote written = name := by
  rw [unquote, h.trimmed.trim_eq]
  cases h with
  | @identifier c tail hstart htail =>
    rw [quotedBody]
    · rintro rest ⟨⟩
      exact absurd hstart (by decide)
  | quoted hne =>
    rw [quotedBody, List.getLast?_concat, if_pos rfl, List.dropLast_concat]
    exact collapsePairs_doubleQuotes name

end Spells

/-- Up to its closing quote a quoted name has every quote inside doubled. -/
theorem exists_of_quotedTail {seen after : Text} (h : quotedTail t = some (seen, after)) :
    ∃ name, seen = doubleQuotes name ++ ['"'] := by
  fun_induction quotedTail t generalizing seen after with
  | case1 => cases h
  | case2 rest ih =>
    obtain ⟨⟨seen', after'⟩, hs, heq⟩ := Option.map_eq_some_iff.1 h
    cases heq
    obtain ⟨name, rfl⟩ := ih hs
    exact ⟨'"' :: name, rfl⟩
  | case3 rest _ =>
    cases h
    exact ⟨[], rfl⟩
  | case4 c rest hc ih =>
    obtain ⟨⟨seen', after'⟩, hs, heq⟩ := Option.map_eq_some_iff.1 h
    cases heq
    obtain ⟨name, rfl⟩ := ih hs
    exact ⟨c :: name, by rw [doubleQuotes_cons hc, List.cons_append]⟩

/-- Every name that is read is an identifier or stands in quotes. -/
theorem name?_eq_some {written after : Text} (h : name? t = some (written, after)) :
    ∃ name, Spells written name := by
  cases t with
  | nil => cases h
  | cons c rest =>
    rw [name?] at h
    by_cases hc : c = '"'
    · rw [if_pos hc] at h
      cases hq : quotedTail rest with
      | none =>
        rw [hq] at h
        cases h
      | some found =>
        obtain ⟨seen, after'⟩ := found
        obtain ⟨name, rfl⟩ := exists_of_quotedTail hq
        simp only [hq] at h
        split at h
        · cases h
        · next hne =>
          cases h
          refine ⟨name, .quoted ?_⟩
          rintro rfl
          exact hne rfl
    · rw [if_neg hc, identifier?] at h
      split at h
      · next hstart =>
        cases h
        exact ⟨_, .identifier hstart (List.all_eq_true.1 List.all_takeWhile)⟩
      · cases h

/-! ## Written names -/

namespace WrittenName

theorem spells (n : WrittenName) : Spells n.written n.value := by
  cases n with
  | identifier t h =>
    have hall := inIdentifier_of_isIdentifier h
    rw [isIdentifier, Bool.and_eq_true] at h
    cases t with
    | nil => cases h.1
    | cons c t =>
      exact .identifier
        (startsIdentifier_of_inIdentifier (hall c List.mem_cons_self) (by simpa using h.1))
        fun d hd => continuesIdentifier_of_inIdentifier (hall d (List.mem_cons_of_mem c hd))
  | quoted t hne hline => exact .quoted hne

/-- A written name is read where it stands, if the next character ends it. -/
theorem name?_written (n : WrittenName) (hc : continuesIdentifier c = false) (hquote : c ≠ '"')
    (rest : Text) : name? (n.written ++ c :: rest) = some (n.written, c :: rest) :=
  n.spells.name?_append fun d hd => by
    cases hd
    exact ⟨hc, hquote⟩

theorem trimmed_written (n : WrittenName) : Trimmed n.written := n.spells.trimmed

/-- Without its quotes a written name is the name. -/
theorem unquote_written (n : WrittenName) : unquote n.written = n.value := n.spells.unquote_eq

theorem passable_written (n : WrittenName) : Passable n.written := by
  cases n with
  | identifier t h => exact (IsWords.of_isIdentifier h).passable
  | quoted t hne hline =>
    constructor
    · have hopen : ({} : Nesting).step? '"' = some insideQuotes := rfl
      rw [written, Nesting.after?_cons, hopen, Option.bind_some, Nesting.after?_append,
        after?_doubleQuotes]
      rfl
    · refine commentFree_cons.2 ⟨fun h => absurd h.2.1 (by decide), ?_⟩
      exact (commentFree_doubleQuotes t).append (commentFree_of_not_mem (by decide)) (by decide)

theorem hides_written (n : WrittenName) (hd : inIdentifier d = false)
    (hplain : isDelimiter d = false) : ({} : Nesting).Hides d n.written := by
  cases n with
  | identifier t h =>
    exact Nesting.hides_of_not_mem fun hmem =>
      ne_of_inIdentifier (inIdentifier_of_isIdentifier h d hmem) hd rfl
  | quoted t hne hline =>
    have hquote : d ≠ '"' := by
      rintro rfl
      cases hplain
    refine Nesting.hides_cons.2 ⟨fun h => hquote h.1.symm, fun m hm => ?_⟩
    cases hm
    refine (hides_doubleQuotes hquote t).append (after?_doubleQuotes t) ?_
    exact Nesting.hides_of_not_mem fun hmem => hquote (List.mem_singleton.1 hmem)

/-- The first character of a written name belongs to an identifier or is a quote. -/
theorem head?_written_ne (n : WrittenName) (hd : inIdentifier d = false) (hquote : d ≠ '"') :
    n.written.head? ≠ some d := by
  cases n with
  | identifier t h =>
    intro hhead
    exact ne_of_inIdentifier (inIdentifier_of_isIdentifier h d (List.mem_of_head? hhead)) hd rfl
  | quoted t hne hline =>
    intro hhead
    exact hquote (Option.some.inj hhead).symm

theorem oneLine_written (n : WrittenName) : '\n' ∉ n.written := by
  cases n with
  | identifier t h =>
    intro hmem
    cases inIdentifier_of_isIdentifier h '\n' hmem
  | quoted t hne hline =>
    intro hmem
    rw [written, List.mem_cons, List.mem_append, List.mem_singleton] at hmem
    rcases hmem with hmem | hmem | hmem
    · cases hmem
    · exact hline (mem_of_mem_doubleQuotes hmem)
    · cases hmem

/-- No written name starts with `var` and a blank. -/
theorem afterVar?_written (n : WrittenName) : afterVar? n.written = none := by
  cases n with
  | identifier t h =>
    rw [written, afterVar?]
    cases hread : readFolded "var" t with
    | none => rfl
    | some found =>
      obtain ⟨seen, rest⟩ := found
      have hblank : blankRun rest = none := by
        cases rest with
        | nil => rfl
        | cons c rest =>
          have hmem : c ∈ t := by
            rw [readFolded_eq hread]
            exact List.mem_append_right _ List.mem_cons_self
          rw [blankRun, isBlank_of_inIdentifier (inIdentifier_of_isIdentifier h c hmem)]
          rfl
      simp only [Option.bind_eq_bind, Option.bind_some, hblank, Option.bind_none]
  | quoted t hne hline =>
    rw [written, afterVar?, readFolded_eq_none (by decide)]
    rfl

end WrittenName

end DocAudit
