import DocAudit.Proofs.Documentation.Escape

/-!
# Words of markup

Whether a text starts with a reference, or with the start of a tag, is decided by a word: characters
with no blank among them, nothing that is ever escaped and nothing that closes a tag. For the start
of a tag it also matters whether the next angle bracket behind the word closes one. So what follows
the first character that closes a tag decides nothing: a character that stands before it is stray,
or not, whatever comes behind.

* `IsWord`: words.
* `exists_word_of_reference`, `exists_word_of_opensMarkup`: what is written as markup.
* `strayImage?_append`: stray characters before the end of a tag.
-/

namespace DocAudit

open Markup

/-- No character of a text is blank, and none closes a tag. -/
def Tight (t : Text) : Prop := ∀ c ∈ t, isBlank c = false ∧ c ≠ '>'

instance (t : Text) : Decidable (Tight t) :=
  inferInstanceAs (Decidable (∀ c ∈ t, isBlank c = false ∧ c ≠ '>'))

/-- A character of a word. -/
def InWord (c : Char) : Prop := (isBlank c = false ∧ c ≠ '>') ∧ c ≠ '&' ∧ c ≠ '<'

instance (c : Char) : Decidable (InWord c) := inferInstanceAs (Decidable ((_ ∧ _) ∧ _ ∧ _))

/-- A word of markup: tight, and without a character that could be stray. -/
def IsWord (t : Text) : Prop := ∀ c ∈ t, InWord c

instance (t : Text) : Decidable (IsWord t) := inferInstanceAs (Decidable (∀ c ∈ t, InWord c))

theorem IsWord.append {s t : Text} (hs : IsWord s) (ht : IsWord t) : IsWord (s ++ t) := by
  intro c hc
  exact (List.mem_append.1 hc).elim (hs c) (ht c)

theorem IsWord.tight {t : Text} (h : IsWord t) : Tight t := fun c hc => (h c hc).1

theorem IsWord.never_stray {t : Text} (h : IsWord t) : ∀ c ∈ t, c ≠ '&' ∧ c ≠ '<' :=
  fun c hc => (h c hc).2

theorem isBlank_of_range {c : Char} (h : 33 ≤ c.toNat ∧ c.toNat ≤ 126) : isBlank c = false := by
  rw [Bool.eq_false_iff]
  intro hb
  simp only [isBlank, Bool.or_eq_true, Bool.and_eq_true, decide_eq_true_eq, beq_iff_eq] at hb
  omega

theorem isBlank_of_isDigit {c : Char} (h : c.isDigit = true) : isBlank c = false := by
  have hc := isDigit_iff.1 h
  exact isBlank_of_range (by omega)

theorem isBlank_of_decimalDigit? (c : Char) (d : Nat) (h : decimalDigit? c = some d) :
    isBlank c = false := by
  rw [decimalDigit?] at h
  split at h
  · next hc => exact isBlank_of_isDigit hc
  · cases h

theorem isBlank_of_hexDigit? (c : Char) (d : Nat) (h : hexDigit? c = some d) :
    isBlank c = false := by
  rw [hexDigit?] at h
  split at h
  · next hc => exact isBlank_of_isDigit hc
  · split at h
    · next hc =>
      have hlow : 97 ≤ c.toNat := UInt32.le_iff_toNat_le.1 hc.1
      have hhigh : c.toNat ≤ 102 := UInt32.le_iff_toNat_le.1 hc.2
      exact isBlank_of_range (by omega)
    · split at h
      · next hc =>
        have hlow : 65 ≤ c.toNat := UInt32.le_iff_toNat_le.1 hc.1
        have hhigh : c.toNat ≤ 70 := UInt32.le_iff_toNat_le.1 hc.2
        exact isBlank_of_range (by omega)
      · cases h

theorem inWord_of_decimalDigit? (c : Char) (d : Nat) (h : decimalDigit? c = some d) :
    InWord c := by
  refine ⟨⟨isBlank_of_decimalDigit? c d h, ?_⟩, ?_, ?_⟩ <;>
    · rintro rfl
      exact absurd h (by simp [decimalDigit?])

theorem inWord_of_hexDigit? (c : Char) (d : Nat) (h : hexDigit? c = some d) : InWord c := by
  refine ⟨⟨isBlank_of_hexDigit? c d h, ?_⟩, ?_, ?_⟩ <;>
    · rintro rfl
      exact absurd h (by simp [hexDigit?])

section Digits

variable {base : Nat} {digit? : Char → Option Nat}

theorem exists_word_of_readNumber?
    (hdigit : ∀ c d, digit? c = some d → InWord c)
    {value code : Nat} {t rest : Text} (h : readNumber? base digit? value t = some (code, rest)) :
    ∃ w, IsWord w ∧ t = w ++ rest ∧
      ∀ after, readNumber? base digit? value (w ++ after) = some (code, after) := by
  induction t generalizing value with
  | nil => cases h
  | cons c t ih =>
    rw [readNumber?] at h
    by_cases hc : c = ';'
    · rw [if_pos hc] at h
      cases h
      refine ⟨[c], by rw [hc]; decide, rfl, fun after => ?_⟩
      rw [List.singleton_append, readNumber?, if_pos hc]
    · rw [if_neg hc] at h
      cases hd : digit? c with
      | none =>
        rw [hd] at h
        cases h
      | some d =>
        rw [hd] at h
        obtain ⟨w, hw, rfl, hread⟩ := ih h
        refine ⟨c :: w, List.forall_mem_cons.2 ⟨hdigit c d hd, hw⟩, rfl, fun after => ?_⟩
        rw [List.cons_append, readNumber?, if_neg hc, hd]
        exact hread after

theorem exists_word_of_numberReference?
    (hdigit : ∀ c d, digit? c = some d → InWord c)
    {t rest : Text} {r : Reference} (h : numberReference? base digit? t = some (r, rest)) :
    ∃ c w, (digit? c).isSome = true ∧ IsWord (c :: w) ∧ t = c :: w ++ rest ∧
      ∀ after, numberReference? base digit? (c :: w ++ after) = some (r, after) := by
  cases t with
  | nil => cases h
  | cons c t =>
    simp only [numberReference?, Option.bind_eq_bind, Option.bind_eq_some_iff] at h
    obtain ⟨d, hd, ⟨code, after⟩, hr, he⟩ := h
    cases he
    obtain ⟨w, hw, rfl, hread⟩ := exists_word_of_readNumber? hdigit hr
    refine ⟨c, w, by rw [hd]; rfl, List.forall_mem_cons.2 ⟨hdigit c d hd, hw⟩, rfl, fun after => ?_⟩
    simp only [numberReference?, List.cons_append, hd, Option.bind_eq_bind, Option.bind_some, hread]
    rfl

end Digits

theorem characterNames_read :
    ∀ entry ∈ characterNames, IsWord entry.1 ∧ ∀ after,
      (Reference.read? (entry.1 ++ after)).isSome = true := by
  intro entry h
  simp only [characterNames, List.mem_cons, List.not_mem_nil, or_false] at h
  rcases h with rfl | rfl | rfl | rfl | rfl <;> exact ⟨by decide, fun after => rfl⟩

/-- A reference is a word, whatever follows it. -/
theorem exists_word_of_reference {t : Text} (h : (Reference.read? t).isSome = true) :
    ∃ w rest, IsWord w ∧ t = w ++ rest ∧ ∀ after, (Reference.read? (w ++ after)).isSome = true := by
  obtain ⟨⟨r, rest⟩, hr⟩ := Option.isSome_iff_exists.1 h
  unfold Reference.read? at hr
  split at hr
  · obtain ⟨c, w, -, hw, rfl, hread⟩ := exists_word_of_numberReference? inWord_of_hexDigit? hr
    refine ⟨'#' :: 'x' :: c :: w, rest, ?_, rfl, fun after => ?_⟩
    · exact (show IsWord ['#', 'x'] by decide).append hw
    · have hafter : Reference.read? ('#' :: 'x' :: c :: w ++ after) = some (r, after) := hread after
      rw [hafter]
      rfl
  · obtain ⟨c, w, hc, hw, rfl, hread⟩ :=
      exists_word_of_numberReference? inWord_of_decimalDigit? hr
    refine ⟨'#' :: c :: w, rest, ?_, rfl, fun after => ?_⟩
    · exact (show IsWord ['#'] by decide).append hw
    · have hx : c ≠ 'x' := by
        rintro rfl
        exact absurd hc (by decide)
      rw [List.cons_append, List.cons_append, Reference.read?]
      · rw [← List.cons_append, hread]
        rfl
      · rintro tail he
        cases he
        exact hx rfl
  · obtain ⟨⟨name, c⟩, hmem, hn⟩ := List.exists_of_findSome?_eq_some hr
    obtain ⟨after, hp, he⟩ := Option.map_eq_some_iff.1 hn
    cases he
    obtain ⟨hword, hread⟩ := characterNames_read _ hmem
    exact ⟨name, rest, hword, eq_of_isPrefixOf? hp, hread⟩

/-! ## Tags -/

theorem isBlank_of_isLower {c : Char} (h : c.isLower = true) : isBlank c = false := by
  obtain ⟨hlow, hhigh⟩ := (Bool.and_eq_true _ _).mp h
  have hlow' : 97 ≤ c.toNat := UInt32.le_iff_toNat_le.1 (of_decide_eq_true hlow)
  have hhigh' : c.toNat ≤ 122 := UInt32.le_iff_toNat_le.1 (of_decide_eq_true hhigh)
  exact isBlank_of_range (by omega)

theorem isBlank_of_foldCase {c : Char} (h : (foldCase c).isLower = true) : isBlank c = false := by
  rw [foldCase] at h
  split at h
  · next hc =>
    rw [hc]
    decide
  · split at h
    · next hc =>
      rw [hc]
      decide
    · exact (toLower_congr (f := isBlank) (by decide) c).symm.trans (isBlank_of_isLower h)

theorem isWord_of_readFolded {word t seen rest : Text} (hword : ∀ c ∈ word, c.isLower = true)
    (h : readFolded word t = some (seen, rest)) :
    IsWord seen ∧ t = seen ++ rest ∧ (word ≠ [] → ∀ after, (seen ++ after).head? ≠ some '/') ∧
      ∀ after, readFolded word (seen ++ after) = some (seen, after) := by
  obtain ⟨rfl, rfl⟩ := readFolded_eq_some_iff.1 h
  have hlower {c : Char} (hc : c ∈ seen) : (foldCase c).isLower = true :=
    hword (foldCase c) (List.mem_map_of_mem hc)
  have hplain {c d : Char} (hc : c ∈ seen) (hd : (foldCase d).isLower = false) : c ≠ d := by
    rintro rfl
    rw [hlower hc] at hd
    cases hd
  refine ⟨fun c hc => ?_, rfl, fun hne after hhead => ?_, fun after => ?_⟩
  · exact ⟨⟨isBlank_of_foldCase (hlower hc), hplain hc rfl⟩, hplain hc rfl, hplain hc rfl⟩
  · cases seen with
    | nil => exact hne rfl
    | cons c seen => exact hplain List.mem_cons_self rfl (Option.some.inj hhead)
  · exact readFolded_eq_some_iff.2 ⟨rfl, rfl⟩

/-- Whether markup opens depends on a word, and then on whether a tag ends behind it. -/
theorem exists_word_of_opensMarkup {t : Text} (h : opensMarkup t = true) :
    ∃ w rest, IsWord w ∧ t = w ++ rest ∧
      ∀ after, (endsTag rest = true → endsTag after = true) → opensMarkup (w ++ after) = true := by
  rw [opensMarkup, Bool.or_eq_true, Bool.or_eq_true, List.isPrefixOf_iff_prefix,
    List.isPrefixOf_iff_prefix] at h
  rcases h with (⟨rest, hrest⟩ | ⟨rest, hrest⟩) | h
  · exact ⟨("!--" : Text), rest, by decide, hrest.symm, fun after _ => rfl⟩
  · exact ⟨("![CDATA[" : Text), rest, by decide, hrest.symm, fun after _ => rfl⟩
  · obtain ⟨tag, htag, hmatch⟩ := List.any_eq_true.1 h
    obtain ⟨hne, hlower⟩ := isLower_of_mem_documentationTags tag htag
    split at hmatch
    · next seen rest hread =>
      obtain ⟨hseen, heq, hfirst, hagain⟩ := isWord_of_readFolded hlower hread
      by_cases hslash : t.head? = some '/'
      · obtain ⟨t', rfl⟩ : ∃ t', t = '/' :: t' := by
          cases t with
          | nil => cases hslash
          | cons c t' =>
            cases hslash
            exact ⟨t', rfl⟩
        rw [if_pos hslash, List.drop_one, List.tail_cons] at heq
        refine ⟨'/' :: seen, rest, List.forall_mem_cons.2 ⟨by decide, hseen⟩, by rw [heq]; rfl,
          fun after hends => ?_⟩
        exact (opensMarkup_of_readFolded htag (hagain after) (hfirst hne after) (hends hmatch)).2
      · rw [if_neg hslash] at heq
        refine ⟨seen, rest, hseen, heq, fun after hends => ?_⟩
        exact (opensMarkup_of_readFolded htag (hagain after) (hfirst hne after) (hends hmatch)).1
    · cases hmatch

theorem endsTag_cons_iff {c : Char} {rest : Text} :
    endsTag (c :: rest) = true ↔
      c = '>' ∨ (isBlank c = true ∨ c = '/') ∧
        rest.find? (fun d => d = '<' || d = '>') = some '>' := by
  simp only [endsTag, Bool.or_eq_true, Bool.and_eq_true, decide_eq_true_eq]

/-! ## Before the end of a tag -/

/-- A word does not reach past the end of a tag. -/
theorem exists_of_tight {w rest a r : Text} (hw : Tight w) (ha : '>' ∈ a)
    (h : a ++ r = w ++ rest) : ∃ a', a = w ++ a' ∧ rest = a' ++ r ∧ '>' ∈ a' := by
  rcases List.append_eq_append_iff.1 h with ⟨w', rfl, -⟩ | ⟨a', rfl, rfl⟩
  · exact absurd rfl (hw '>' (List.mem_append_left w' ha)).2
  · refine ⟨a', rfl, rfl, (List.mem_append.1 ha).resolve_left fun hmem => ?_⟩
    exact (hw '>' hmem).2 rfl

theorem endsTag_append {a : Text} (h : '>' ∈ a) (r : Text) : endsTag (a ++ r) = endsTag a := by
  cases a with
  | nil => cases h
  | cons c a =>
    by_cases hc : c = '>'
    · rw [List.cons_append, endsTag, endsTag, hc]
      rfl
    · have hmem : '>' ∈ a := (List.mem_cons.1 h).resolve_left (Ne.symm hc)
      have hsome : (a.find? fun d => d = '<' || d = '>').isSome = true :=
        List.find?_isSome.2 ⟨'>', hmem, rfl⟩
      rw [List.cons_append, endsTag, endsTag, List.find?_append, Option.or_of_isSome hsome]

/-- Whether a reference starts is decided before the end of a tag. -/
theorem isSome_read?_append {a : Text} (h : '>' ∈ a) (r : Text) :
    (Reference.read? (a ++ r)).isSome = (Reference.read? a).isSome := by
  rw [Bool.eq_iff_iff]
  constructor
  · intro hread
    obtain ⟨w, rest, hw, heq, hagain⟩ := exists_word_of_reference hread
    obtain ⟨a', rfl, -, -⟩ := exists_of_tight hw.tight h heq
    exact hagain a'
  · intro hread
    obtain ⟨w, rest, -, rfl, hagain⟩ := exists_word_of_reference hread
    rw [List.append_assoc]
    exact hagain (rest ++ r)

/-- Whether markup opens is decided by the end of a tag. -/
theorem opensMarkup_append {a : Text} (h : '>' ∈ a) (r : Text) :
    opensMarkup (a ++ r) = opensMarkup a := by
  rw [Bool.eq_iff_iff]
  constructor
  · intro hopens
    obtain ⟨w, rest, hw, heq, hagain⟩ := exists_word_of_opensMarkup hopens
    obtain ⟨a', rfl, rfl, hmem⟩ := exists_of_tight hw.tight h heq
    exact hagain a' fun hends => by rwa [endsTag_append hmem] at hends
  · intro hopens
    obtain ⟨w, rest, hw, rfl, hagain⟩ := exists_word_of_opensMarkup hopens
    obtain ⟨a', hcut, hrest, hmem⟩ := exists_of_tight (r := []) hw.tight h (List.append_nil _)
    rw [List.append_nil] at hrest
    rw [List.append_assoc]
    exact hagain (rest ++ r) fun hends => by rwa [endsTag_append (hrest ▸ hmem)]

/-- **Before the end of a tag**, whether a character is stray does not depend on what comes behind
the end. -/
theorem strayImage?_append {a : Text} (h : '>' ∈ a) (c : Char) (r : Text) :
    strayImage? c (a ++ r) = strayImage? c a := by
  rw [strayImage?, strayImage?, isSome_read?_append h, opensMarkup_append h]

end DocAudit
