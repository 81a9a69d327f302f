import DocAudit.Proofs.Text
import DocAudit.Source.ProcedureHeader

/-!
# Headers and what follows them

What a reader of headers takes from the start of a text does not depend on the text behind it.

* `ProcedureHead.read?_append`: a head is the head of every longer text.
* `parametersClosed_append`: parameters that are closed stay closed.
* `parametersClosed_of_read?`: a header has closed parameters, comment or not.
-/

namespace DocAudit

/-! ## Words -/

/-- **A word is read of every text that starts with a spelling of it**, up to case folding. -/
theorem readFolded_eq_some_iff {word t seen after : Text} :
    readFolded word t = some (seen, after) ↔ seen.map foldCase = word ∧ t = seen ++ after := by
  induction word generalizing t seen with
  | nil =>
    rw [readFolded, Option.some.injEq, Prod.mk.injEq, List.map_eq_nil_iff]
    constructor
    · rintro ⟨hseen, hafter⟩
      exact ⟨hseen.symm, by rw [← hseen, hafter, List.nil_append]⟩
    · rintro ⟨hseen, ht⟩
      exact ⟨hseen.symm, by rw [ht, hseen, List.nil_append]⟩
  | cons w ws ih =>
    cases t with
    | nil =>
      rw [readFolded]
      refine iff_of_false (Option.some_ne_none _).symm ?_
      rintro ⟨hmap, ht⟩
      rw [(List.append_eq_nil_iff.1 ht.symm).1] at hmap
      cases hmap
    | cons c rest =>
      rw [readFolded]
      by_cases hc : foldCase c = w
      · rw [if_pos hc, Option.map_eq_some_iff]
        constructor
        · rintro ⟨⟨seen', after'⟩, hread, heq⟩
          cases heq
          obtain ⟨hmap, hrest⟩ := ih.1 hread
          exact ⟨by rw [List.map_cons, hc, hmap], by rw [hrest, List.cons_append]⟩
        · rintro ⟨hmap, ht⟩
          cases seen with
          | nil => cases hmap
          | cons d seen =>
            obtain ⟨rfl, rfl⟩ := List.cons.inj ht
            exact ⟨(seen, after), ih.2 ⟨(List.cons.inj hmap).2, rfl⟩, rfl⟩
      · rw [if_neg hc]
        refine iff_of_false (Option.some_ne_none _).symm ?_
        rintro ⟨hmap, ht⟩
        cases seen with
        | nil => cases hmap
        | cons d seen =>
          obtain ⟨rfl, -⟩ := List.cons.inj ht
          exact hc (List.cons.inj hmap).1

theorem readFolded_append {word s seen after : Text} (h : readFolded word s = some (seen, after))
    (t : Text) : readFolded word (s ++ t) = some (seen, after ++ t) := by
  obtain ⟨hseen, rfl⟩ := readFolded_eq_some_iff.1 h
  exact readFolded_eq_some_iff.2 ⟨hseen, List.append_assoc seen after t⟩

theorem length_readFolded {word s seen after : Text}
    (h : readFolded word s = some (seen, after)) : s.length = word.length + after.length := by
  obtain ⟨rfl, rfl⟩ := readFolded_eq_some_iff.1 h
  rw [List.length_append, List.length_map]

/-- A text that does not start like a word is not given the word by what follows. -/
theorem readFolded_append_eq_none {word s : Text} (h : readFolded (word.take s.length) s = none)
    (t : Text) : readFolded word (s ++ t) = none := by
  induction word generalizing s with
  | nil =>
    rw [List.take_nil, readFolded] at h
    cases h
  | cons w ws ih =>
    cases s with
    | nil =>
      rw [List.length_nil, List.take_zero, readFolded] at h
      cases h
    | cons c rest =>
      rw [List.length_cons, List.take_succ_cons, readFolded] at h
      rw [List.cons_append, readFolded]
      by_cases hc : foldCase c = w
      · rw [if_pos hc, Option.map_eq_none_iff] at h
        rw [if_pos hc, ih h]
        rfl
      · rw [if_neg hc]

theorem readFolded_eq_none {w : Text} {c : Char} (h : w.head?.any (· ≠ foldCase c) = true)
    (t : Text) : readFolded w (c :: t) = none := by
  cases w with
  | nil => cases h
  | cons a w => rw [readFolded, if_neg fun he => of_decide_eq_true h he.symm]

theorem readFolded_self {word : Text} (h : ∀ c ∈ word, foldCase c = c) (rest : Text) :
    readFolded word (word ++ rest) = some (word, rest) := by
  have hmap : word.map foldCase = word := (List.map_congr_left h).trans (List.map_id' word)
  exact readFolded_eq_some_iff.2 ⟨hmap, rfl⟩

theorem blankRun_append {s : Text} (hs : s ≠ []) (h : blankRun s ≠ some []) (t : Text) :
    blankRun (s ++ t) = (blankRun s).map (· ++ t) := by
  cases s with
  | nil => exact absurd rfl hs
  | cons c rest =>
    rw [List.cons_append]
    rw [blankRun] at h ⊢
    rw [blankRun]
    by_cases hc : isBlank c = true
    · rw [if_pos hc] at h ⊢
      rw [if_pos hc, trimLeft_append (fun he => h (by rw [he]))]
      rfl
    · simp only [if_neg hc]
      rfl

/-! ## Keywords -/

/-- The reader of a single keyword, by which `keyword?` tries its words in turn. -/
theorem keyword?_cons (w : Text) (words : List Text) (t : Text) :
    keyword? (w :: words) t =
      ((readFolded w t).bind fun p => (blankRun p.2).map fun rest => (w, p.1, rest)).or
        (keyword? words t) := by
  simp only [keyword?, List.findSome?_cons]
  cases readFolded w t with
  | none => rfl
  | some p =>
    simp only [Option.bind_some]
    cases blankRun p.2 with
    | none => rfl
    | some rest => rfl

theorem keyword?_eq_none {words : List Text} {c : Char}
    (h : ∀ w ∈ words, w.head?.any (· ≠ foldCase c) = true) (t : Text) :
    keyword? words (c :: t) = none := by
  induction words with
  | nil => rfl
  | cons w ws ih =>
    rw [keyword?_cons, readFolded_eq_none (h w List.mem_cons_self),
      ih fun w hw => h w (List.mem_cons_of_mem _ hw)]
    rfl

theorem keyword?_append_eq_none {words : List Text} {s : Text}
    (h : ∀ w ∈ words, readFolded (w.take s.length) s = none) (t : Text) :
    keyword? words (s ++ t) = none := by
  induction words with
  | nil => rfl
  | cons w ws ih =>
    rw [keyword?_cons, readFolded_append_eq_none (h w List.mem_cons_self),
      ih fun w hw => h w (List.mem_cons_of_mem _ hw)]
    rfl

theorem keyword?_self {words : List Text} {word : Text} (hmem : word ∈ words)
    (hself : ∀ c ∈ word, foldCase c = c)
    (hother : ∀ w ∈ words, w ≠ word → readFolded (w.take word.length) word = none) (t : Text) :
    keyword? words (word ++ ' ' :: t) = some (word, word, trimLeft t) := by
  induction words with
  | nil => cases hmem
  | cons w ws ih =>
    by_cases hw : w = word
    · have hrun : blankRun (' ' :: t) = some (trimLeft t) := rfl
      rw [hw, keyword?_cons, readFolded_self hself]
      simp only [Option.bind_some, hrun, Option.map_some, Option.some_or]
    · rw [keyword?_cons, readFolded_append_eq_none (hother w List.mem_cons_self hw),
        ih ((List.mem_cons.1 hmem).resolve_left (Ne.symm hw))
          fun v hv => hother v (List.mem_cons_of_mem _ hv)]
      rfl

/-- A keyword is read as one of the words, in some case, with blanks behind it. -/
theorem exists_of_keyword? {words : List Text} {t word written rest : Text}
    (h : keyword? words t = some (word, written, rest)) :
    word ∈ words ∧ ∃ gap, IsGap gap ∧ t = written ++ (gap ++ rest) ∧
      readFolded word t = some (written, gap ++ rest) := by
  obtain ⟨w, hw, hread⟩ := List.exists_of_findSome?_eq_some h
  cases hfolded : readFolded w t with
  | none =>
    rw [hfolded] at hread
    cases hread
  | some found =>
    rw [hfolded] at hread
    obtain ⟨rest', hrun, heq⟩ := Option.map_eq_some_iff.1 hread
    cases heq
    obtain ⟨gap, hgap, hafter⟩ := isGap_of_blankRun hrun
    have ht := readFolded_eq hfolded
    exact ⟨hw, gap, hgap, by rw [ht, hafter], by rw [hfolded, ← hafter]⟩

theorem length_of_keyword? {words : List Text} {t word written rest : Text}
    (h : keyword? words t = some (word, written, rest)) :
    word ∈ words ∧ word.length + rest.length < t.length := by
  obtain ⟨hword, gap, hgap, -, hread⟩ := exists_of_keyword? h
  have hlen := length_readFolded hread
  have hpos := List.length_pos_of_ne_nil hgap.ne_nil
  rw [List.length_append] at hlen
  exact ⟨hword, by omega⟩

/-- What a text longer than each of the words says about them is not changed by what follows. -/
theorem keyword?_append {words : List Text} {s : Text} (hlen : ∀ w ∈ words, w.length < s.length)
    (h : ∀ word written, keyword? words s ≠ some (word, written, [])) (t : Text) :
    keyword? words (s ++ t) =
      (keyword? words s).map fun (word, written, rest) => (word, written, rest ++ t) := by
  induction words with
  | nil => rfl
  | cons w ws ih =>
    have hw := hlen w List.mem_cons_self
    rw [keyword?_cons] at h ⊢
    rw [keyword?_cons]
    cases hr : readFolded w s with
    | none =>
      rw [hr] at h
      rw [readFolded_append_eq_none (by rw [List.take_of_length_le (Nat.le_of_lt hw), hr])]
      exact ih (fun v hv => hlen v (List.mem_cons_of_mem _ hv)) h
    | some p =>
      obtain ⟨seen, after⟩ := p
      rw [hr] at h
      have hafter : after ≠ [] := by
        rintro rfl
        have hl := length_readFolded hr
        rw [List.length_nil] at hl
        omega
      rw [readFolded_append hr]
      simp only [Option.bind_some] at h ⊢
      cases hb : blankRun after with
      | none =>
        rw [hb] at h
        rw [blankRun_append hafter (by rw [hb]; exact fun he => by cases he), hb]
        exact ih (fun v hv => hlen v (List.mem_cons_of_mem _ hv)) h
      | some rest =>
        rw [hb] at h
        have hne : blankRun after ≠ some [] := by
          rw [hb]
          rintro ⟨⟩
          exact h _ _ rfl
        rw [blankRun_append hafter hne, hb]
        rfl

/-! ## Names -/

theorem quotedTail_append {s seen after : Text} (h : quotedTail s = some (seen, after))
    (hafter : after ≠ []) (t : Text) : quotedTail (s ++ t) = some (seen, after ++ t) := by
  fun_induction quotedTail s generalizing seen after with
  | case1 => cases h
  | case2 rest ih =>
    obtain ⟨⟨seen', after'⟩, hs, heq⟩ := Option.map_eq_some_iff.1 h
    cases heq
    simp only [List.cons_append, quotedTail]
    simp only [if_true]
    rw [ih hs hafter]
    rfl
  | case3 rest hne =>
    cases h
    cases rest with
    | nil => exact absurd rfl hafter
    | cons d after =>
      rw [List.cons_append, List.cons_append, quotedTail]
      · rw [if_pos rfl]
      · rintro rest' ⟨⟩
        exact hne after rfl
  | case4 c rest hc ih =>
    obtain ⟨⟨seen', after'⟩, hs, heq⟩ := Option.map_eq_some_iff.1 h
    cases heq
    rw [List.cons_append]
    unfold quotedTail
    rw [if_neg hc, ih hs hafter]
    rfl

theorem length_quotedTail {s seen after : Text} (h : quotedTail s = some (seen, after)) :
    after.length < s.length := by
  fun_induction quotedTail s generalizing seen after with
  | case1 => cases h
  | case2 rest ih =>
    obtain ⟨⟨seen', after'⟩, hs, heq⟩ := Option.map_eq_some_iff.1 h
    cases heq
    have := ih hs
    simp only [List.length_cons]
    omega
  | case3 rest hne =>
    cases h
    exact Nat.lt_succ_self _
  | case4 c rest hc ih =>
    obtain ⟨⟨seen', after'⟩, hs, heq⟩ := Option.map_eq_some_iff.1 h
    cases heq
    exact Nat.lt_succ_of_lt (ih hs)

theorem identifier?_append {s seen after : Text} (h : identifier? s = some (seen, after))
    (hafter : after ≠ []) (t : Text) : identifier? (s ++ t) = some (seen, after ++ t) := by
  cases s with
  | nil => cases h
  | cons c rest =>
    rw [List.cons_append]
    rw [identifier?] at h ⊢
    by_cases hc : startsIdentifier c = true
    · rw [if_pos hc] at h ⊢
      cases h
      rw [takeWhile_append_of_ne_nil hafter, dropWhile_append_of_ne_nil hafter]
    · rw [if_neg hc] at h
      cases h

theorem name?_append {s seen after : Text} (h : name? s = some (seen, after))
    (hafter : after ≠ []) (t : Text) : name? (s ++ t) = some (seen, after ++ t) := by
  cases s with
  | nil => cases h
  | cons c rest =>
    rw [List.cons_append]
    rw [name?] at h ⊢
    by_cases hc : c = '"'
    · rw [if_pos hc] at h ⊢
      cases hq : quotedTail rest with
      | none =>
        rw [hq] at h
        cases h
      | some p =>
        obtain ⟨seen', after'⟩ := p
        rw [hq] at h
        simp only at h
        by_cases he : seen' = ['"']
        · rw [if_pos he] at h
          cases h
        · rw [if_neg he] at h
          cases h
          rw [quotedTail_append hq hafter]
          simp only [if_neg he]
    · rw [if_neg hc] at h ⊢
      exact identifier?_append h hafter t

theorem length_name? {s seen after : Text} (h : name? s = some (seen, after)) :
    after.length < s.length := by
  cases s with
  | nil => cases h
  | cons c rest =>
    rw [name?] at h
    by_cases hc : c = '"'
    · rw [if_pos hc] at h
      cases hq : quotedTail rest with
      | none =>
        rw [hq] at h
        cases h
      | some p =>
        obtain ⟨seen', after'⟩ := p
        rw [hq] at h
        simp only at h
        by_cases he : seen' = ['"']
        · rw [if_pos he] at h
          cases h
        · rw [if_neg he] at h
          cases h
          exact Nat.lt_succ_of_lt (length_quotedTail hq)
    · rw [if_neg hc, identifier?] at h
      by_cases hs : startsIdentifier c = true
      · rw [if_pos hs] at h
        cases h
        exact Nat.lt_succ_of_le (length_dropWhile_le _ _)
      · rw [if_neg hs] at h
        cases h

/-! ## Heads -/

theorem ProcedureHead.read?_eq_some_iff {t rest : Text} {head : ProcedureHead} :
    ProcedureHead.read? t = some (head, rest) ↔
      ∃ word written afterKind afterName,
        keyword? (procedureWords.map (·.1)) (readModifier (trimLeft t)).2 =
          some (word, written, afterKind) ∧
        procedureWords.lookup word = some head.kind ∧
        name? afterKind = some (head.writtenName, afterName) ∧
        trimLeft afterName = '(' :: rest ∧
        head.access = (readModifier (trimLeft t)).1 := by
  simp only [ProcedureHead.read?, Option.bind_eq_bind, Option.bind_eq_some_iff]
  constructor
  · rintro ⟨⟨word, written, afterKind⟩, hk, kind, hl, ⟨name, afterName⟩, hn, h⟩
    refine ⟨word, written, afterKind, afterName, hk, ?_⟩
    cases ht : trimLeft afterName with
    | nil =>
      simp only [ht] at h
      cases h
    | cons c tail =>
      simp only [ht] at h
      by_cases hc : c = '('
      · rw [if_pos hc] at h
        cases h
        exact ⟨hl, hn, by rw [hc], rfl⟩
      · rw [if_neg hc] at h
        cases h
  · rintro ⟨word, written, afterKind, afterName, hk, hl, hn, ht, ha⟩
    refine ⟨_, hk, _, hl, _, hn, ?_⟩
    simp only [ht, if_true]
    rw [← ha]

theorem length_of_mem_modifierWords : ∀ w ∈ modifierWords, w.length ≤ 9 := by decide

theorem length_of_mem_procedureWords :
    ∀ w ∈ procedureWords.map (·.1), 7 ≤ w.length ∧ w.length ≤ 9 := by decide

/-- An access word that is not all of a text is read whatever follows. -/
theorem readModifier_append {s : Text} (hlen : 10 ≤ s.length) (hs : (readModifier s).2 ≠ [])
    (t : Text) : readModifier (s ++ t) = ((readModifier s).1, (readModifier s).2 ++ t) := by
  have hwords : ∀ w ∈ modifierWords, w.length < s.length := fun w hw =>
    Nat.lt_of_le_of_lt (length_of_mem_modifierWords w hw) hlen
  have hrest : ∀ word written, keyword? modifierWords s ≠ some (word, written, []) := by
    intro word written h
    rw [readModifier, h] at hs
    exact hs rfl
  simp only [readModifier, keyword?_append hwords hrest]
  cases keyword? modifierWords s with
  | none => rfl
  | some found => rfl

theorem length_readModifier_le (t : Text) : (readModifier t).2.length ≤ t.length := by
  rw [readModifier]
  cases h : keyword? modifierWords t with
  | none => exact Nat.le_refl _
  | some found =>
    have := (length_of_keyword? h).2
    simp only
    omega

theorem ProcedureHead.le_length {t : Text} {found : ProcedureHead × Text}
    (h : ProcedureHead.read? t = some found) : 10 ≤ (readModifier (trimLeft t)).2.length := by
  obtain ⟨head, rest⟩ := found
  obtain ⟨word, written, afterKind, afterName, hk, -, hn, ht, -⟩ :=
    ProcedureHead.read?_eq_some_iff.1 h
  have hword := length_of_mem_procedureWords word (length_of_keyword? hk).1
  have hkind := (length_of_keyword? hk).2
  have hname := length_name? hn
  have hafter := length_trimLeft_le afterName
  rw [ht, List.length_cons] at hafter
  omega

/-- **A head is the head of every longer text.** -/
theorem ProcedureHead.read?_append {s rest : Text} {head : ProcedureHead}
    (h : ProcedureHead.read? s = some (head, rest)) (t : Text) :
    ProcedureHead.read? (s ++ t) = some (head, rest ++ t) := by
  have hlen := ProcedureHead.le_length h
  obtain ⟨word, written, afterKind, afterName, hk, hl, hn, ht, ha⟩ :=
    ProcedureHead.read?_eq_some_iff.1 h
  have hmodifier := length_readModifier_le (trimLeft s)
  have hm : (readModifier (trimLeft s)).2 ≠ [] := by
    intro he
    rw [he] at hlen
    cases hlen
  have hs : trimLeft s ≠ [] := by
    intro he
    have : (readModifier (trimLeft s)).2.length ≤ 0 := by rwa [he] at hmodifier ⊢
    exact hm (List.eq_nil_of_length_eq_zero (Nat.le_zero.1 this))
  have hafter : trimLeft afterName ≠ [] := by
    rw [ht]
    exact List.cons_ne_nil _ _
  have hafterName : afterName ≠ [] := fun he => hafter (by rw [he, trimLeft_nil])
  have hwords : ∀ w ∈ procedureWords.map (·.1),
      w.length < (readModifier (trimLeft s)).2.length := fun w hw =>
    Nat.lt_of_le_of_lt (length_of_mem_procedureWords w hw).2 hlen
  have hkind : ∀ word written,
      keyword? (procedureWords.map (·.1)) (readModifier (trimLeft s)).2 ≠
        some (word, written, []) := by
    intro word' written' he
    rw [hk] at he
    cases he
    cases hn
  refine ProcedureHead.read?_eq_some_iff.2
    ⟨word, written, afterKind ++ t, afterName ++ t, ?_, hl, name?_append hn hafterName t, ?_, ?_⟩
  · rw [trimLeft_append hs, readModifier_append (Nat.le_trans hlen hmodifier) hm,
      keyword?_append hwords hkind, hk]
    rfl
  · rw [trimLeft_append hafter, ht, List.cons_append]
  · rw [ha, trimLeft_append hs, readModifier_append (Nat.le_trans hlen hmodifier) hm]

/-! ## Parentheses -/

theorem closeParenthesis_append {q : Quoting} {depth : Nat} {s inside after : Text}
    (h : closeParenthesis q depth s = some (inside, after)) (t : Text) :
    closeParenthesis q depth (s ++ t) = some (inside, after ++ t) := by
  induction s generalizing q depth inside after with
  | nil => cases h
  | cons c rest ih =>
    rw [List.cons_append]
    unfold closeParenthesis at h ⊢
    by_cases hc : q = .outside ∧ c = ')'
    · rw [if_pos hc] at h ⊢
      cases depth with
      | zero =>
        cases h
        rfl
      | succ n =>
        obtain ⟨⟨i, a⟩, hi, heq⟩ := Option.map_eq_some_iff.1 h
        cases heq
        simp only
        rw [ih hi]
        rfl
    · rw [if_neg hc] at h ⊢
      obtain ⟨⟨i, a⟩, hi, heq⟩ := Option.map_eq_some_iff.1 h
      cases heq
      rw [ih hi]
      rfl

theorem parametersClosed_iff {t : Text} :
    parametersClosed t = true ↔
      ∃ head rest, ProcedureHead.read? t = some (head, rest) ∧
        (closeParenthesis .outside 0 rest).isSome = true := by
  rw [parametersClosed]
  cases h : ProcedureHead.read? t with
  | none => exact iff_of_false (fun hc => by cases hc) (fun ⟨_, _, hc, _⟩ => by cases hc)
  | some found =>
    constructor
    · intro hc
      exact ⟨found.1, found.2, rfl, hc⟩
    · rintro ⟨head, rest, heq, hc⟩
      cases heq
      exact hc

theorem parametersClosed_append {s : Text} (h : parametersClosed s = true) (t : Text) :
    parametersClosed (s ++ t) = true := by
  obtain ⟨head, rest, hr, hc⟩ := parametersClosed_iff.1 h
  obtain ⟨⟨inside, after⟩, hi⟩ := Option.isSome_iff_exists.1 hc
  refine parametersClosed_iff.2 ⟨head, rest ++ t, ProcedureHead.read?_append hr t, ?_⟩
  rw [closeParenthesis_append hi]
  rfl

/-- Dropping a comment takes away the end of a line and nothing else. -/
theorem stripCommentFrom_prefix (q : Quoting) (t : Text) :
    ∃ comment, t = stripCommentFrom q t ++ comment := by
  induction t generalizing q with
  | nil => exact ⟨[], rfl⟩
  | cons c rest ih =>
    rw [stripCommentFrom]
    by_cases hc : q = .outside ∧ c = '/' ∧ rest.head? = some '/'
    · rw [if_pos hc]
      exact ⟨c :: rest, rfl⟩
    · rw [if_neg hc]
      obtain ⟨comment, h⟩ := ih (q.step c)
      exact ⟨comment, by rw [List.cons_append, ← h]⟩

/-- **A line with a header has closed parameters**, whether or not a comment follows them. -/
theorem parametersClosed_of_read? {t : Text} (h : (ProcedureHeader.read? t).isSome = true) :
    parametersClosed t = true := by
  obtain ⟨comment, ht⟩ := stripCommentFrom_prefix .outside t
  obtain ⟨header, hh⟩ := Option.isSome_iff_exists.1 h
  simp only [ProcedureHeader.read?, Option.bind_eq_bind, Option.bind_eq_some_iff] at hh
  obtain ⟨⟨head, rest⟩, hr, ⟨inside, after⟩, hc, -⟩ := hh
  rw [ht]
  refine parametersClosed_append (parametersClosed_iff.2 ⟨head, rest, hr, ?_⟩) comment
  rw [hc]
  rfl

end DocAudit
