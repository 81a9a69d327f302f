import DocAudit.Markup.Element

/-!
# Readers do not look ahead

Every reader of markup takes a start of the text and leaves the rest. What it takes decides what it
reads: with another rest behind it the same start is read as the same thing. A tag, a comment and a
section of literal text end with their last character, an angle bracket, so that they do not depend
on the rest at all; text between tags ends where the next tag starts, and a name where a character
follows that is no part of it.

* `QualifiedName.exists_takes`, `TagAttribute.exists_takes`, `readAttributes?_takes`: parts of tags.
* `cutAt_takes`: the search for the end of a comment or section.
* `Token.exists_takes`: a token.
-/

namespace DocAudit.Markup

/-- A reader takes this start of a text for `a`, whatever follows. -/
def Takes {α : Type} (read : Text → Option (α × Text)) (seen : Text) (a : α) : Prop :=
  ∀ other, read (seen ++ other) = some (a, other)

/-! ## Runs of characters -/

section Run

variable {p : Char → Bool} {t : Text}

theorem forall_mem_takeWhile (p : Char → Bool) (t : Text) : ∀ c ∈ t.takeWhile p, p c = true :=
  List.all_eq_true.1 List.all_takeWhile

/-- A run of characters ends before what follows it, if that starts with no character of its
kind. -/
theorem takeWhile_append_stop {run r : Text} (hrun : ∀ c ∈ run, p c = true)
    (hstop : r.head?.any p = false) :
    (run ++ r).takeWhile p = run ∧ (run ++ r).dropWhile p = r := by
  rw [List.takeWhile_append_of_pos hrun, List.dropWhile_append_of_pos hrun]
  cases r with
  | nil => exact ⟨List.append_nil run, rfl⟩
  | cons c r =>
    have hc : ¬ p c = true := by simpa using hstop
    rw [List.takeWhile_cons_of_neg hc, List.dropWhile_cons_of_neg hc]
    exact ⟨List.append_nil run, rfl⟩

theorem head?_dropWhile (p : Char → Bool) (t : Text) : (t.dropWhile p).head?.any p = false := by
  induction t with
  | nil => rfl
  | cons c t ih =>
    cases hc : p c with
    | true => rwa [List.dropWhile_cons_of_pos hc]
    | false =>
      rw [List.dropWhile_cons_of_neg (by simp [hc])]
      exact hc

end Run

/-- The blanks before what is read are skipped, whatever follows it. -/
theorem skipSpace_takes {t s rest : Text} (h : skipSpace t = s ++ rest) (hne : s ≠ []) :
    ∃ blanks, t = blanks ++ (s ++ rest) ∧
      ∀ other, skipSpace (blanks ++ (s ++ other)) = s ++ other := by
  obtain ⟨c, s, rfl⟩ := List.exists_cons_of_ne_nil hne
  have hstop (other : Text) : (c :: s ++ other).head?.any isSpace = false := by
    have hhead := head?_dropWhile isSpace t
    rw [← skipSpace, h] at hhead
    exact hhead
  refine ⟨t.takeWhile isSpace, ?_, fun other => ?_⟩
  · rw [← h, skipSpace, List.takeWhile_append_dropWhile]
  · exact (takeWhile_append_stop (forall_mem_takeWhile isSpace t) (hstop other)).2

theorem head?_append_eq {seen : Text} (hne : seen ≠ []) (rest other : Text) :
    (seen ++ rest).head? = (seen ++ other).head? := by
  obtain ⟨c, seen, rfl⟩ := List.exists_cons_of_ne_nil hne
  rfl

/-! ## Names and attributes -/

theorem QualifiedName.exists_takes {t rest : Text} {n : QualifiedName}
    (h : QualifiedName.read? t = some (n, rest)) :
    ∃ run, t = run ++ rest ∧ run.head?.any inQualifiedName = true ∧ ofRun? run = some n ∧
      ∀ other, other.head? = rest.head? → QualifiedName.read? (run ++ other) = some (n, other) := by
  obtain ⟨m, hm, he⟩ := Option.map_eq_some_iff.1 h
  cases he
  have hrun := forall_mem_takeWhile inQualifiedName t
  refine ⟨t.takeWhile inQualifiedName, List.takeWhile_append_dropWhile.symm, ?_, hm, ?_⟩
  · cases hr : t.takeWhile inQualifiedName with
    | nil =>
      rw [hr] at hm
      cases hm
    | cons c run =>
      rw [hr] at hrun
      exact hrun c List.mem_cons_self
  · intro other hother
    have hstop : other.head?.any inQualifiedName = false := by
      rw [hother]
      exact head?_dropWhile inQualifiedName t
    obtain ⟨htake, hdrop⟩ := takeWhile_append_stop hrun hstop
    rw [read?, htake, hdrop, hm, Option.map_some]

theorem readValue?_takes {quote : Char} {t value after : Text}
    (h : readValue? quote t = some (value, after)) :
    ∃ seen, t = seen ++ after ∧ Takes (readValue? quote) seen value := by
  simp only [readValue?] at h
  split at h
  · cases h
  · next c rest hd =>
    split at h
    · next hc =>
      obtain ⟨v, hv, he⟩ := Option.map_eq_some_iff.1 h
      cases he
      have hclass := forall_mem_takeWhile (fun c => c != quote && c != '<') t
      have hsplit := List.takeWhile_append_dropWhile (p := fun c => c != quote && c != '<') (l := t)
      rw [hd, hc.1] at hsplit
      refine ⟨t.takeWhile (fun c => c != quote && c != '<') ++ [quote], ?_, fun other => ?_⟩
      · rw [List.append_assoc]
        exact hsplit.symm
      · obtain ⟨htake, hdrop⟩ := takeWhile_append_stop (r := quote :: other) hclass (by simp)
        rw [List.append_assoc, List.singleton_append, readValue?, htake, hdrop]
        simp only [hc.2, and_self, if_true, hv, Option.map_some]
    · cases h

/-- A value is read after an equals sign up to its closing quote. -/
theorem readAssignment?_takes {t value after : Text}
    (h : readAssignment? t = some (value, after)) :
    ∃ seen, t = seen ++ after ∧ seen ≠ [] ∧ Takes readAssignment? seen value := by
  simp only [readAssignment?] at h
  split at h
  · cases h
  · next c afterName he =>
    obtain ⟨blanks, rfl, hskip⟩ := skipSpace_takes (s := [c]) he (List.cons_ne_nil _ _)
    split at h
    · next hequals =>
      subst hequals
      split at h
      · cases h
      · next quote rest hr =>
        obtain ⟨blanks', rfl, hskip'⟩ := skipSpace_takes (s := [quote]) hr (List.cons_ne_nil _ _)
        split at h
        · next hquote =>
          obtain ⟨seen, rfl, htakes⟩ := readValue?_takes h
          refine ⟨blanks ++ '=' :: (blanks' ++ quote :: seen), by simp, by simp, fun other => ?_⟩
          have hvalue := htakes other
          simp only [List.singleton_append] at hskip hskip'
          simp only [List.append_assoc, List.cons_append, readAssignment?, hskip, hskip', if_true,
            if_pos hquote, hvalue]
        · cases h
    · cases h

theorem TagAttribute.exists_takes {t after : Text} {a : TagAttribute}
    (h : TagAttribute.read? t = some (a, after)) :
    ∃ seen, t = seen ++ after ∧ seen.head?.any inQualifiedName = true ∧
      Takes TagAttribute.read? seen a := by
  simp only [TagAttribute.read?, Option.bind_eq_bind, Option.bind_eq_some_iff] at h
  obtain ⟨⟨name, afterName⟩, hn, ⟨value, rest⟩, hv, he⟩ := h
  cases he
  obtain ⟨run, rfl, hhead, -, hname⟩ := QualifiedName.exists_takes hn
  obtain ⟨seen, rfl, hne, hvalue⟩ := readAssignment?_takes hv
  refine ⟨run ++ seen, by simp, ?_, fun other => ?_⟩
  · cases run with
    | nil => cases hhead
    | cons c run => exact hhead
  · have hother := hname (seen ++ other) (head?_append_eq hne other rest)
    have hassigned := hvalue other
    simp only [List.append_assoc, TagAttribute.read?, hother, Option.bind_eq_bind, Option.bind_some,
      hassigned]
    rfl

theorem TagEnd.exists_takes {t rest : Text} {e : TagEnd} (h : TagEnd.read? t = some (e, rest)) :
    ∃ seen, t = seen ++ rest ∧ seen.getLast? = some '>' ∧ Takes TagEnd.read? seen e := by
  unfold TagEnd.read? at h
  split at h
  · cases h
    exact ⟨['>'], rfl, rfl, fun other => rfl⟩
  · cases h
    exact ⟨['/', '>'], rfl, rfl, fun other => rfl⟩
  · cases h

/-- Where a name starts the tag does not end. -/
theorem TagEnd.read?_eq_none {t : Text} (h : t.head?.any inQualifiedName = true) :
    TagEnd.read? t = none := by
  unfold TagEnd.read?
  split
  · cases h
  · cases h
  · rfl

theorem ne_nil_of_getLast? {t : Text} {c : Char} (h : t.getLast? = some c) : t ≠ [] := by
  rintro rfl
  cases h

theorem readAttributes?_cons {t after : Text} {a : TagAttribute}
    (hend : TagEnd.read? (skipSpace t) = none) (hspace : t.head?.any isSpace = true)
    (ha : TagAttribute.read? (skipSpace t) = some (a, after)) :
    readAttributes? t =
      (readAttributes? after).map fun (others, tagEnd, rest) => (a :: others, tagEnd, rest) := by
  rw [readAttributes?]
  simp only [hend, hspace, if_true]
  split
  · next a' after' h =>
    rw [ha] at h
    cases h
    cases readAttributes? after with
    | none => rfl
    | some found => rfl
  · next h =>
    rw [ha] at h
    cases h

/-- The attributes of a start tag are read up to its angle bracket. -/
theorem readAttributes?_takes {t rest : Text} {attributes : List TagAttribute} {tagEnd : TagEnd}
    (h : readAttributes? t = some (attributes, tagEnd, rest)) :
    ∃ seen, t = seen ++ rest ∧ seen.getLast? = some '>' ∧
      ∀ other, readAttributes? (seen ++ other) = some (attributes, tagEnd, other) := by
  fun_induction readAttributes? t generalizing attributes with
  | case1 t e r he =>
    cases h
    obtain ⟨seen, hseen, hlast, htakes⟩ := TagEnd.exists_takes he
    obtain ⟨blanks, rfl, hskip⟩ := skipSpace_takes hseen (ne_nil_of_getLast? hlast)
    refine ⟨blanks ++ seen, by simp, by simp [hlast], fun other => ?_⟩
    have hend := htakes other
    rw [List.append_assoc, readAttributes?, hskip]
    simp only [hend]
  | case2 t hend hspace a after ha ih =>
    simp only [Option.bind_eq_bind, Option.bind_eq_some_iff] at h
    obtain ⟨⟨others, e, r⟩, ho, he⟩ := h
    cases he
    obtain ⟨seen, hseen, hhead, htakes⟩ := TagAttribute.exists_takes ha
    obtain ⟨seen', rfl, hlast, hothers⟩ := ih ho
    have hne : seen ≠ [] := by
      rintro rfl
      cases hhead
    obtain ⟨blanks, rfl, hskip⟩ := skipSpace_takes hseen hne
    refine ⟨blanks ++ (seen ++ seen'), by simp, by simp [hlast], fun other => ?_⟩
    have hname : (seen ++ (seen' ++ other)).head?.any inQualifiedName = true := by
      rw [head?_append_eq hne _ [], List.append_nil, hhead]
    have hblank : (blanks ++ (seen ++ (seen' ++ other))).head?.any isSpace = true := by
      rw [← hspace, ← List.append_assoc, ← List.append_assoc blanks seen]
      exact congrArg (Option.any isSpace)
        (head?_append_eq (List.append_ne_nil_of_right_ne_nil blanks hne) _ _)
    have hend' : TagEnd.read? (skipSpace (blanks ++ (seen ++ (seen' ++ other)))) = none := by
      rw [hskip]
      exact TagEnd.read?_eq_none hname
    have hattribute : TagAttribute.read? (skipSpace (blanks ++ (seen ++ (seen' ++ other)))) =
        some (a, seen' ++ other) := by
      rw [hskip]
      exact htakes _
    rw [List.append_assoc, List.append_assoc, readAttributes?_cons hend' hblank hattribute, hothers]
    rfl
  | case3 => cases h
  | case4 => cases h

/-! ## The end of a comment or section -/

theorem isPrefixOf?_append (start rest : Text) : start.isPrefixOf? (start ++ rest) = some rest := by
  induction start with
  | nil => rfl
  | cons c start ih =>
    show (if c == c then start.isPrefixOf? (start ++ rest) else none) = some rest
    rw [beq_self_eq_true, if_pos rfl, ih]

/-- Whether a text starts with a mark is decided by as many characters as the mark has. -/
theorem isPrefixOf?_append_eq_none {mark t rest : Text} (hlength : mark.length ≤ t.length)
    (h : mark.isPrefixOf? (t ++ rest) = none) (other : Text) :
    mark.isPrefixOf? (t ++ other) = none := by
  cases ho : mark.isPrefixOf? (t ++ other) with
  | none => rfl
  | some after =>
    have hprefix : mark <+: t :=
      List.prefix_of_prefix_length_le (eq_of_isPrefixOf? ho ▸ List.prefix_append mark after)
        (List.prefix_append t other) hlength
    obtain ⟨u, rfl⟩ := hprefix
    rw [List.append_assoc, isPrefixOf?_append] at h
    cases h

theorem cutAt_takes {mark t before after : Text} (hne : mark ≠ [])
    (h : cutAt mark t = some (before, after)) (other : Text) :
    cutAt mark (before ++ (mark ++ other)) = some (before, other) := by
  induction t generalizing before with
  | nil =>
    obtain ⟨m, mark, rfl⟩ := List.exists_cons_of_ne_nil hne
    cases h
  | cons c rest ih =>
    rw [cutAt] at h
    cases hp : mark.isPrefixOf? (c :: rest) with
    | some found =>
      rw [hp] at h
      cases h
      obtain ⟨m, mark, rfl⟩ := List.exists_cons_of_ne_nil hne
      have hmark := isPrefixOf?_append (m :: mark) other
      rw [List.cons_append] at hmark
      rw [List.nil_append, List.cons_append, cutAt, hmark]
    | none =>
      rw [hp] at h
      obtain ⟨⟨before', after'⟩, hcut, he⟩ := Option.map_eq_some_iff.1 h
      cases he
      have hrest : c :: rest = (c :: before' ++ mark) ++ after := by
        rw [eq_of_cutAt hcut]
        simp
      rw [hrest] at hp
      have hlength : mark.length ≤ (c :: before' ++ mark).length := by
        rw [List.length_append]
        exact Nat.le_add_left _ _
      have hnone := isPrefixOf?_append_eq_none hlength hp other
      rw [List.append_assoc, List.cons_append] at hnone
      rw [List.cons_append, cutAt, hnone]
      simp only [ih hcut, Option.map_some]

/-! ## Tokens -/

theorem readComment?_takes {t rest : Text} {token : Token}
    (h : readComment? t = some (token, rest)) :
    ∃ seen, t = seen ++ rest ∧ seen.getLast? = some '>' ∧ Takes readComment? seen token := by
  simp only [readComment?, Option.bind_eq_bind, Option.bind_eq_some_iff] at h
  obtain ⟨⟨content, r⟩, hc, he⟩ := h
  split at he
  · next hok =>
    cases he
    refine ⟨content ++ "-->", eq_of_cutAt hc, by simp, fun other => ?_⟩
    have hcut := cutAt_takes (by decide) hc other
    rw [List.append_assoc, readComment?, hcut]
    exact if_pos hok
  · cases he

theorem readLiteral?_takes {t rest : Text} {token : Token}
    (h : readLiteral? t = some (token, rest)) :
    ∃ seen, t = seen ++ rest ∧ seen.getLast? = some '>' ∧ Takes readLiteral? seen token := by
  simp only [readLiteral?, Option.bind_eq_bind, Option.bind_eq_some_iff] at h
  obtain ⟨⟨content, r⟩, hc, he⟩ := h
  split at he
  · next hok =>
    cases he
    refine ⟨content ++ "]]>", eq_of_cutAt hc, by simp, fun other => ?_⟩
    have hcut := cutAt_takes (by decide) hc other
    rw [List.append_assoc, readLiteral?, hcut]
    exact if_pos hok
  · cases he

theorem readEndTag?_takes {t rest : Text} {token : Token}
    (h : readEndTag? t = some (token, rest)) :
    ∃ seen, t = seen ++ rest ∧ seen.getLast? = some '>' ∧ Takes readEndTag? seen token := by
  simp only [readEndTag?, Option.bind_eq_bind, Option.bind_eq_some_iff] at h
  obtain ⟨⟨name, afterName⟩, hn, he⟩ := h
  obtain ⟨run, rfl, -, -, hname⟩ := QualifiedName.exists_takes hn
  split at he
  · next c r hr =>
    split at he
    · next hc =>
      subst hc
      cases he
      obtain ⟨blanks, hblanks, hskip⟩ := skipSpace_takes (s := ['>']) hr (List.cons_ne_nil _ _)
      simp only at hblanks
      subst hblanks
      refine ⟨run ++ (blanks ++ ['>']), by simp, by simp, fun other => ?_⟩
      have hother := hname (blanks ++ (['>'] ++ other)) (by
        rw [← List.append_assoc, ← List.append_assoc]
        exact head?_append_eq (by simp) _ _)
      rw [List.append_assoc, List.append_assoc, readEndTag?, hother]
      simp only [Option.bind_eq_bind, Option.bind_some, hskip]
      rfl
    · cases he
  · cases he

theorem readStartTag?_takes {t rest : Text} {token : Token}
    (h : readStartTag? t = some (token, rest)) :
    ∃ seen, t = seen ++ rest ∧ seen.head?.any inQualifiedName = true ∧
      seen.getLast? = some '>' ∧ Takes readStartTag? seen token := by
  simp only [readStartTag?, Option.bind_eq_bind, Option.bind_eq_some_iff] at h
  obtain ⟨⟨name, afterName⟩, hn, ⟨attributes, tagEnd, r⟩, ha, he⟩ := h
  cases he
  obtain ⟨run, rfl, hhead, -, hname⟩ := QualifiedName.exists_takes hn
  obtain ⟨seen, rfl, hlast, htakes⟩ := readAttributes?_takes ha
  have hne : run ≠ [] := by
    rintro rfl
    cases hhead
  refine ⟨run ++ seen, by simp, ?_, by simp [hlast], fun other => ?_⟩
  · rw [head?_append_eq hne _ [], List.append_nil, hhead]
  · have hother := hname (seen ++ other) (head?_append_eq (ne_nil_of_getLast? hlast) _ _)
    rw [List.append_assoc, readStartTag?, hother]
    simp only [Option.bind_eq_bind, Option.bind_some, htakes]
    rfl

theorem readTag?_comment (t : Text) : readTag? ("!--" ++ t) = readComment? t := rfl

theorem readTag?_literal (t : Text) : readTag? ("![CDATA[" ++ t) = readLiteral? t := rfl

theorem readTag?_name {t : Text} (h : t.head?.any inQualifiedName = true) :
    readTag? t = readStartTag? t := by
  cases t with
  | nil => cases h
  | cons c t =>
    have hc : inQualifiedName c = true := h
    have hbang : ¬ '!' = c := by
      rintro rfl
      revert hc
      decide
    have hnone (start : Text) : ('!' :: start).isPrefixOf? (c :: t) = none := by
      show (if '!' == c then start.isPrefixOf? t else none) = none
      rw [beq_eq_false_iff_ne.2 hbang]
      rfl
    unfold readTag?
    split
    · next hp => exact absurd (hp.symm.trans (hnone _)) (Option.some_ne_none _)
    · split
      · next hp => exact absurd (hp.symm.trans (hnone _)) (Option.some_ne_none _)
      · split
        · next he =>
          cases he
          exact absurd hc (by decide)
        · rfl

/-- **Tags, comments and sections end with an angle bracket** and are read the same whatever
follows. -/
theorem readTag?_takes {t rest : Text} {token : Token} (h : readTag? t = some (token, rest)) :
    ∃ seen, t = seen ++ rest ∧ seen.getLast? = some '>' ∧ Takes readTag? seen token := by
  have hlast {s seen : Text} (h : seen.getLast? = some '>') : (s ++ seen).getLast? = some '>' := by
    rw [List.getLast?_append, h, Option.some_or]
  unfold readTag? at h
  split at h
  · next after ha =>
    obtain ⟨seen, rfl, hseen, htakes⟩ := readComment?_takes h
    refine ⟨"!--" ++ seen, by rw [eq_of_isPrefixOf? ha, List.append_assoc], hlast hseen,
      fun other => ?_⟩
    rw [List.append_assoc, readTag?_comment]
    exact htakes other
  · split at h
    · next after ha =>
      obtain ⟨seen, rfl, hseen, htakes⟩ := readLiteral?_takes h
      refine ⟨"![CDATA[" ++ seen, by rw [eq_of_isPrefixOf? ha, List.append_assoc], hlast hseen,
        fun other => ?_⟩
      rw [List.append_assoc, readTag?_literal]
      exact htakes other
    · split at h
      · obtain ⟨seen, rfl, hseen, htakes⟩ := readEndTag?_takes h
        exact ⟨'/' :: seen, rfl, @hlast ['/'] seen hseen, fun other => htakes other⟩
      · obtain ⟨seen, rfl, hhead, hseen, htakes⟩ := readStartTag?_takes h
        refine ⟨seen, rfl, hseen, fun other => ?_⟩
        rw [readTag?_name]
        · exact htakes other
        · rw [head?_append_eq (ne_nil_of_getLast? hseen) _ [], List.append_nil, hhead]

theorem readText?_takes {t rest : Text} {token : Token} (h : readText? t = some (token, rest)) :
    ∃ seen, t = seen ++ rest ∧ (∀ c ∈ seen, c ≠ '<') ∧ (∃ content, token = .text content) ∧
      ∀ other, other.head? = rest.head? → readText? (seen ++ other) = some (token, other) := by
  simp only [readText?] at h
  split at h
  · next hok =>
    obtain ⟨decoded, hdecode, he⟩ := Option.map_eq_some_iff.1 h
    cases he
    have hrun := forall_mem_takeWhile (· ≠ '<') t
    refine ⟨t.takeWhile (· ≠ '<'), List.takeWhile_append_dropWhile.symm,
      fun c hc => of_decide_eq_true (hrun c hc), ⟨decoded, rfl⟩, fun other hother => ?_⟩
    have hstop : other.head?.any (· ≠ '<') = false := by
      rw [hother]
      exact head?_dropWhile (· ≠ '<') t
    obtain ⟨htake, hdrop⟩ := takeWhile_append_stop hrun hstop
    rw [readText?, htake, hdrop]
    simp only [hok, if_true, hdecode, Option.map_some]
  · cases h

/-- **A token is read the same whatever follows it**, if it starts with an angle bracket; it ends
with one then. Otherwise it is text, which is read the same as long as the next character is. -/
theorem Token.exists_takes {t rest : Text} {token : Token}
    (h : Token.read? t = some (token, rest)) :
    ∃ seen, t = seen ++ rest ∧ seen ≠ [] ∧
      ((seen.head? = some '<' ∧ seen.getLast? = some '>' ∧ Takes Token.read? seen token) ∨
        ((∃ content, token = .text content) ∧ ∀ other, other.head? = rest.head? →
          Token.read? (seen ++ other) = some (token, other))) := by
  have hlength := Token.read?_length h
  cases t with
  | nil => cases h
  | cons c t =>
    rw [Token.read?] at h
    split at h
    · next hc =>
      obtain ⟨seen, rfl, hlast, htakes⟩ := readTag?_takes h
      refine ⟨c :: seen, rfl, List.cons_ne_nil c seen, Or.inl ⟨congrArg some hc, ?_, ?_⟩⟩
      · rw [List.getLast?_cons, hlast]
        rfl
      · intro other
        rw [List.cons_append, Token.read?, if_pos hc]
        exact htakes other
    · next hc =>
      obtain ⟨seen, hseen, hclass, hcontent, htakes⟩ := readText?_takes h
      have hne : seen ≠ [] := by
        rintro rfl
        rw [hseen, List.nil_append] at hlength
        exact Nat.lt_irrefl _ hlength
      refine ⟨seen, hseen, hne, Or.inr ⟨hcontent, fun other hother => ?_⟩⟩
      have hread := htakes other hother
      obtain ⟨d, seen, rfl⟩ := List.exists_cons_of_ne_nil hne
      rw [List.cons_append] at hread ⊢
      rw [Token.read?, if_neg (hclass d List.mem_cons_self), hread]

end DocAudit.Markup
