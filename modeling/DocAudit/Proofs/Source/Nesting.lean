import DocAudit.Proofs.Text
import DocAudit.Source.TopLevel

/-!
# Nesting

Three readers pass over the text of a header: one looks for a comment, one for the parenthesis that
closes the parameters, and one for the separators at top level. Each keeps track of quotes on its
own. They agree: a text in which everything that opens is closed again leaves each of them as it
was.

* `Nesting`: what is open at a point of a text.
* `Nesting.Hides`: a character never stands at top level in a text.
* `CommentFree`: no comment starts in a text.
* `Passable`: texts that readers pass over.
* `codeOf_codeOf`: the code of a line has no comment and no blanks at its ends.
* `stripCommentFrom_eq_self`, `closeParenthesis_of_passable`, `pieces_append_of_passable`: each
  reader passes over such texts.
-/

namespace DocAudit

/-- The quote, the parentheses and the brackets open at a point of a text. -/
structure Nesting where
  quoting : Quoting := .outside
  parentheses : Nat := 0
  brackets : Nat := 0
deriving DecidableEq, Repr

/-- What is open after one more character; none if it closes what is not open. Quoted characters
open and close nothing but quotes. -/
def Nesting.step? (n : Nesting) (c : Char) : Option Nesting :=
  if n.quoting = .outside ∧ c = '(' then some { n with parentheses := n.parentheses + 1 }
  else if n.quoting = .outside ∧ c = '[' then some { n with brackets := n.brackets + 1 }
  else if n.quoting = .outside ∧ c = ')' then
    if n.parentheses = 0 then none else some { n with parentheses := n.parentheses - 1 }
  else if n.quoting = .outside ∧ c = ']' then
    if n.brackets = 0 then none else some { n with brackets := n.brackets - 1 }
  else some { n with quoting := n.quoting.step c }

/-- How many parentheses and brackets are open. -/
def Nesting.depth (n : Nesting) : Nat := n.parentheses + n.brackets

/-- What is open after a text. -/
def Nesting.after? (n : Nesting) (t : Text) : Option Nesting := t.foldlM Nesting.step? n

/-- In a text that is read at `n`, the character never stands at top level. -/
def Nesting.Hides (n : Nesting) (c : Char) (t : Text) : Prop :=
  ∀ before after, t = before ++ c :: after → n.after? before ≠ some {}

/-- In a text that is read at `q`, no two slashes stand together outside quotes. -/
def CommentFree (q : Quoting) (t : Text) : Prop :=
  ∀ before after, t = before ++ '/' :: '/' :: after → q.after before ≠ .outside

/-- A text in which everything that opens is closed again, and in which no comment starts. -/
structure Passable (t : Text) : Prop where
  after?_eq : ({} : Nesting).after? t = some {}
  commentFree : CommentFree .outside t

variable {n m : Nesting} {q : Quoting} {c d : Char} {s t : Text}

/-! ## Points of a text -/

namespace Nesting

theorem after?_cons (n : Nesting) (c : Char) (t : Text) :
    n.after? (c :: t) = (n.step? c).bind (·.after? t) := List.foldlM_cons

theorem after?_append (n : Nesting) (s t : Text) :
    n.after? (s ++ t) = (n.after? s).bind (·.after? t) := List.foldlM_append

/-- What a character does, by its meaning to the readers. -/
inductive Move (n : Nesting) : Char → Nesting → Prop
  | opensParenthesis (hq : n.quoting = .outside) :
      Move n '(' { n with parentheses := n.parentheses + 1 }
  | closesParenthesis {k : Nat} (hq : n.quoting = .outside) (hk : n.parentheses = k + 1) :
      Move n ')' { n with parentheses := k }
  | opensBracket (hq : n.quoting = .outside) : Move n '[' { n with brackets := n.brackets + 1 }
  | closesBracket {k : Nat} (hq : n.quoting = .outside) (hk : n.brackets = k + 1) :
      Move n ']' { n with brackets := k }
  | other {c : Char} (hc : n.quoting = .outside → c ≠ '(' ∧ c ≠ ')' ∧ c ≠ '[' ∧ c ≠ ']') :
      Move n c { n with quoting := n.quoting.step c }

theorem move_of_step? (h : n.step? c = some m) : n.Move c m := by
  rw [step?] at h
  split at h
  · next hc =>
    cases h
    rw [hc.2]
    exact .opensParenthesis hc.1
  · next h₁ =>
    split at h
    · next hc =>
      cases h
      rw [hc.2]
      exact .opensBracket hc.1
    · next h₂ =>
      split at h
      · next hc =>
        cases hk : n.parentheses with
        | zero =>
          rw [if_pos hk] at h
          cases h
        | succ k =>
          rw [if_neg (by omega), hk] at h
          cases h
          rw [hc.2]
          exact .closesParenthesis hc.1 hk
      · next h₃ =>
        split at h
        · next hc =>
          cases hk : n.brackets with
          | zero =>
            rw [if_pos hk] at h
            cases h
          | succ k =>
            rw [if_neg (by omega), hk] at h
            cases h
            rw [hc.2]
            exact .closesBracket hc.1 hk
        · next h₄ =>
          cases h
          exact .other fun hq => ⟨fun hc => h₁ ⟨hq, hc⟩, fun hc => h₃ ⟨hq, hc⟩,
            fun hc => h₂ ⟨hq, hc⟩, fun hc => h₄ ⟨hq, hc⟩⟩

theorem quoting_step? (h : n.step? c = some m) : m.quoting = n.quoting.step c := by
  cases move_of_step? h with
  | opensParenthesis hq => rw [hq]; rfl
  | closesParenthesis hq => rw [hq]; rfl
  | opensBracket hq => rw [hq]; rfl
  | closesBracket hq => rw [hq]; rfl
  | other => rfl

theorem quoting_after? (h : n.after? t = some m) : m.quoting = n.quoting.after t := by
  induction t generalizing n with
  | nil =>
    cases h
    rfl
  | cons c t ih =>
    rw [after?_cons, Option.bind_eq_some_iff] at h
    obtain ⟨n', hstep, h⟩ := h
    rw [Quoting.after_cons, ih h, quoting_step? hstep]

/-- Characters that open and close nothing leave what is open. -/
theorem step?_of_plain (hc : isDelimiter c = false) (n : Nesting) : n.step? c = some n := by
  simp only [isDelimiter, Bool.or_eq_false_iff, decide_eq_false_iff_not] at hc
  obtain ⟨⟨⟨⟨⟨hdouble, hsingle⟩, hopen⟩, hclose⟩, hleft⟩, hright⟩ := hc
  have hquoting : n.quoting.step c = n.quoting := by
    cases n.quoting with
    | outside => rw [Quoting.step, if_neg hdouble, if_neg hsingle]
    | double => rw [Quoting.step, if_neg hdouble]
    | single => rw [Quoting.step, if_neg hsingle]
  rw [step?, if_neg fun h => hopen h.2, if_neg fun h => hleft h.2, if_neg fun h => hclose h.2,
    if_neg fun h => hright h.2, hquoting]

theorem after?_of_plain (h : ∀ c ∈ t, isDelimiter c = false) (n : Nesting) :
    n.after? t = some n := by
  induction t with
  | nil => rfl
  | cons c t ih =>
    rw [after?_cons, step?_of_plain (h c List.mem_cons_self)]
    exact ih fun d hd => h d (List.mem_cons_of_mem c hd)

/-! ## Hidden characters -/

theorem hides_cons : n.Hides c (d :: t) ↔
    ¬ (d = c ∧ n = {}) ∧ ∀ m, n.step? d = some m → m.Hides c t := by
  constructor
  · intro h
    refine ⟨?_, ?_⟩
    · rintro ⟨rfl, rfl⟩
      exact h [] t rfl rfl
    · intro m hstep before after heq
      have := h (d :: before) after (by rw [heq, List.cons_append])
      rwa [after?_cons, hstep] at this
  · rintro ⟨hhead, htail⟩ before after heq
    cases before with
    | nil =>
      cases heq
      exact fun hn => hhead ⟨rfl, Option.some.inj hn⟩
    | cons d' before =>
      cases heq
      rw [after?_cons]
      intro hn
      obtain ⟨m, hstep, hm⟩ := Option.bind_eq_some_iff.1 hn
      exact htail m hstep before after rfl hm

instance decidableHides (n : Nesting) (c : Char) : (t : Text) → Decidable (n.Hides c t)
  | [] => isTrue fun before after heq => by cases before <;> cases heq
  | d :: t =>
    have hrest : Decidable (∀ m, n.step? d = some m → m.Hides c t) :=
      match n.step? d with
      | none => isTrue fun m hm => by cases hm
      | some m =>
        @decidable_of_iff' _ (m.Hides c t)
          ⟨fun h => h m rfl, fun h m' hm => Option.some.inj hm ▸ h⟩ (decidableHides m c t)
    decidable_of_iff' _ hides_cons

theorem hides_of_not_mem (h : c ∉ t) : n.Hides c t := by
  rintro before after rfl
  exact absurd (List.mem_append_right before List.mem_cons_self) h

theorem Hides.append (hs : n.Hides c s) (hafter : n.after? s = some m) (ht : m.Hides c t) :
    n.Hides c (s ++ t) := by
  intro before after heq
  rcases List.append_eq_append_iff.1 heq with ⟨part, hbefore, ht'⟩ | ⟨part, hs', hrest⟩
  · rw [hbefore, after?_append, hafter]
    exact ht part after ht'
  · cases part with
    | nil =>
      rw [List.append_nil] at hs'
      rw [← hs', hafter]
      exact ht [] after hrest.symm
    | cons d part =>
      cases hrest
      exact hs before part hs'

end Nesting

/-! ## Comments -/

theorem commentFree_cons : CommentFree q (c :: t) ↔
    ¬ (q = .outside ∧ c = '/' ∧ t.head? = some '/') ∧ CommentFree (q.step c) t := by
  constructor
  · intro h
    refine ⟨?_, fun before after heq => h (c :: before) after (by rw [heq, List.cons_append])⟩
    rintro ⟨hq, rfl, hhead⟩
    obtain ⟨after, rfl⟩ := List.head?_eq_some_iff.1 hhead
    exact h [] after rfl hq
  · rintro ⟨hhead, htail⟩ before after heq
    cases before with
    | nil =>
      cases heq
      exact fun hq => hhead ⟨hq, rfl, rfl⟩
    | cons d before =>
      cases heq
      exact htail before after rfl

instance decidableCommentFree (q : Quoting) : (t : Text) → Decidable (CommentFree q t)
  | [] => isTrue fun before after heq => by cases before <;> cases heq
  | c :: t =>
    have := decidableCommentFree (q.step c) t
    decidable_of_iff' _ commentFree_cons

theorem commentFree_of_not_mem (h : '/' ∉ t) : CommentFree q t := by
  rintro before after rfl
  exact absurd (List.mem_append_right before List.mem_cons_self) h

theorem CommentFree.append (hs : CommentFree q s) (ht : CommentFree (q.after s) t)
    (hhead : t.head? ≠ some '/') : CommentFree q (s ++ t) := by
  induction s generalizing q with
  | nil => exact ht
  | cons c s ih =>
    rw [commentFree_cons] at hs
    rw [List.cons_append, commentFree_cons]
    refine ⟨?_, ih hs.2 ht⟩
    rintro ⟨hq, hc, hslash⟩
    cases s with
    | nil => exact hhead hslash
    | cons d s => exact hs.1 ⟨hq, hc, hslash⟩

theorem stripCommentFrom_eq_self (h : CommentFree q t) : stripCommentFrom q t = t := by
  induction t generalizing q with
  | nil => rfl
  | cons c t ih =>
    rw [commentFree_cons] at h
    rw [stripCommentFrom, if_neg h.1, ih h.2]

/-- A comment after a text without comments is dropped. -/
theorem stripCommentFrom_append_comment (h : CommentFree q s) (hq : q.after s = .outside)
    (hlast : s.getLast? ≠ some '/') (t : Text) :
    stripCommentFrom q (s ++ '/' :: '/' :: t) = s := by
  induction s generalizing q with
  | nil =>
    rw [Quoting.after_nil] at hq
    rw [List.nil_append, stripCommentFrom, if_pos ⟨hq, rfl, rfl⟩]
  | cons c s ih =>
    rw [commentFree_cons] at h
    rw [List.cons_append, stripCommentFrom]
    cases s with
    | nil =>
      have hc : c ≠ '/' := fun hc => hlast (congrArg some hc)
      rw [if_neg fun hstop => hc hstop.2.1, ih h.2 hq nofun]
    | cons d s =>
      rw [List.getLast?_cons_cons] at hlast
      have hgo : ¬ (q = .outside ∧ c = '/' ∧ (d :: s ++ '/' :: '/' :: t).head? = some '/') := h.1
      rw [if_neg hgo, ih h.2 hq hlast]

theorem CommentFree.of_append_left (h : CommentFree q (s ++ t)) : CommentFree q s := by
  rintro before after rfl
  exact h before (after ++ t) (by rw [List.append_assoc, List.cons_append, List.cons_append])

theorem CommentFree.of_append_right (h : CommentFree q (s ++ t)) : CommentFree (q.after s) t := by
  rintro before after rfl
  rw [← Quoting.after_append]
  exact h (s ++ before) after (List.append_assoc s before _).symm

/-- What is left when its comment is dropped has no comment. -/
theorem commentFree_stripCommentFrom (q : Quoting) (t : Text) :
    CommentFree q (stripCommentFrom q t) := by
  have hhead (q : Quoting) (t : Text) (h : (stripCommentFrom q t).head? = some '/') :
      t.head? = some '/' := by
    cases t with
    | nil => cases h
    | cons c t =>
      rw [stripCommentFrom] at h
      split at h
      · cases h
      · exact h
  induction t generalizing q with
  | nil => exact commentFree_of_not_mem List.not_mem_nil
  | cons c t ih =>
    rw [stripCommentFrom]
    split
    · exact commentFree_of_not_mem List.not_mem_nil
    · next hstop =>
      refine commentFree_cons.2 ⟨fun h => hstop ⟨h.1, h.2.1, hhead _ _ h.2.2⟩, ih _⟩

theorem Quoting.after_blanks {blanks : Text} (h : allBlank blanks = true) :
    Quoting.outside.after blanks = .outside := by
  induction blanks with
  | nil => rfl
  | cons c blanks ih =>
    rw [allBlank, List.all_cons, Bool.and_eq_true] at h
    have hc : c ≠ '"' ∧ c ≠ '\'' := by
      refine ⟨?_, ?_⟩ <;>
        · rintro rfl
          have hblank := h.1
          revert hblank
          decide
    rw [Quoting.after_cons, Quoting.step, if_neg hc.1, if_neg hc.2]
    exact ih h.2

theorem codeOf_codeOf (line : Text) : codeOf (codeOf line) = codeOf line := by
  have hfree := commentFree_stripCommentFrom .outside line
  obtain ⟨blanks, -, hright⟩ := exists_trimRight (trimLeft (stripComment line))
  rw [← stripComment, ← indentOf_append_trimLeft (stripComment line), hright] at hfree
  have hcode : CommentFree .outside (codeOf line) := by
    rw [← Quoting.after_blanks (allBlank_indentOf (stripComment line))]
    exact hfree.of_append_right.of_append_left
  rw [codeOf, stripComment, stripCommentFrom_eq_self hcode, codeOf, trim_trim]

/-! ## Texts that are passed over -/

namespace Passable

theorem quoting (h : Passable t) : Quoting.outside.after t = .outside :=
  (Nesting.quoting_after? h.after?_eq).symm

theorem append (hs : Passable s) (ht : Passable t) (hhead : t.head? ≠ some '/') :
    Passable (s ++ t) where
  after?_eq := by
    rw [Nesting.after?_append, hs.after?_eq]
    exact ht.after?_eq
  commentFree := by
    refine hs.commentFree.append ?_ hhead
    rw [hs.quoting]
    exact ht.commentFree

theorem cons_plain (hc : isDelimiter c = false) (hslash : c ≠ '/') (ht : Passable t) :
    Passable (c :: t) where
  after?_eq := by
    rw [Nesting.after?_cons, Nesting.step?_of_plain hc]
    exact ht.after?_eq
  commentFree := by
    have hquoting := Nesting.quoting_step? (Nesting.step?_of_plain hc {})
    refine commentFree_cons.2 ⟨fun h => hslash h.2.1, ?_⟩
    rw [← hquoting]
    exact ht.commentFree

theorem of_plain (h : ∀ c ∈ t, isDelimiter c = false ∧ c ≠ '/') : Passable t where
  after?_eq := Nesting.after?_of_plain (fun c hc => (h c hc).1) {}
  commentFree := commentFree_of_not_mem fun hmem => (h '/' hmem).2 rfl

end Passable

/-! ## Parentheses -/

theorem closeParenthesis_cons_of_step? (h : n.step? c = some m) (t : Text) :
    closeParenthesis n.quoting n.parentheses (c :: t) =
      (closeParenthesis m.quoting m.parentheses t).map
        fun (inside, after) => (c :: inside, after) := by
  cases Nesting.move_of_step? h with
  | opensParenthesis hq =>
    rw [hq]
    rfl
  | closesParenthesis hq hk =>
    rw [hq, hk]
    rfl
  | opensBracket hq =>
    rw [hq]
    rfl
  | closesBracket hq =>
    rw [hq]
    rfl
  | other hc =>
    rw [closeParenthesis.eq_def]
    simp only
    rw [if_neg fun hp => (hc hp.1).2.1 hp.2, if_neg fun hp => (hc hp.1).1 hp.2]

/-- The reader for the closing parenthesis passes over a text that closes none of those open. -/
theorem closeParenthesis_append_of_after? (h : n.after? s = some m) (t : Text) :
    closeParenthesis n.quoting n.parentheses (s ++ t) =
      (closeParenthesis m.quoting m.parentheses t).map
        fun (inside, after) => (s ++ inside, after) := by
  induction s generalizing n with
  | nil =>
    cases h
    exact Option.map_id'.symm
  | cons c s ih =>
    rw [Nesting.after?_cons, Option.bind_eq_some_iff] at h
    obtain ⟨n', hstep, h⟩ := h
    rw [List.cons_append, closeParenthesis_cons_of_step? hstep, ih h, Option.map_map]
    rfl

theorem closeParenthesis_of_passable (h : Passable s) (after : Text) :
    closeParenthesis .outside 0 (s ++ ')' :: after) = some (s, after) := by
  have hclose := closeParenthesis_append_of_after? h.after?_eq (')' :: after)
  rw [closeParenthesis.eq_def _ _ (')' :: after)] at hclose
  simp only [and_self, if_true, Option.map_some, List.append_nil] at hclose
  exact hclose

/-! ## Pieces -/

theorem extendFirst_eq_modifyHead {ls : List Text} (h : ls ≠ []) (c : Char) :
    extendFirst c ls = ls.modifyHead (c :: ·) := by
  cases ls with
  | nil => exact absurd rfl h
  | cons l ls => rfl

theorem bracketDepth_of_step? (h : n.step? c = some m) :
    (if n.quoting = .outside then bracketDepth n.depth c else n.depth) = m.depth := by
  cases Nesting.move_of_step? h with
  | opensParenthesis hq =>
    rw [if_pos hq, bracketDepth, if_pos (Or.inl rfl)]
    exact (Nat.succ_add n.parentheses n.brackets).symm
  | @closesParenthesis k hq hk =>
    rw [if_pos hq, bracketDepth, if_neg (by decide), if_pos (Or.inl rfl), Nesting.depth, hk,
      Nat.succ_add]
    rfl
  | opensBracket hq =>
    rw [if_pos hq, bracketDepth, if_pos (Or.inr rfl)]
    rfl
  | closesBracket hq hk =>
    rw [if_pos hq, bracketDepth, if_neg (by decide), if_pos (Or.inr rfl), Nesting.depth, hk]
    rfl
  | other hc =>
    refine ite_eq_right_iff.2 fun hq => ?_
    obtain ⟨h₁, h₂, h₃, h₄⟩ := hc hq
    rw [bracketDepth, if_neg (not_or.2 ⟨h₁, h₃⟩), if_neg (not_or.2 ⟨h₂, h₄⟩)]

theorem pieces_cons_of_step? (h : n.step? c = some m) (hd : ¬ (c = d ∧ n = {})) (t : Text) :
    pieces d n.quoting n.depth (c :: t) = (pieces d m.quoting m.depth t).modifyHead (c :: ·) := by
  have hkeep :
      ¬ (n.quoting = .outside ∧ n.depth = 0 ∧ c = d ∧ isDelimiter c = false) := by
    rintro ⟨hq, hdepth, hc, -⟩
    obtain ⟨q, p, b⟩ := n
    obtain rfl : q = .outside := hq
    obtain ⟨rfl, rfl⟩ : p = 0 ∧ b = 0 := Nat.add_eq_zero_iff.1 hdepth
    exact hd ⟨hc, rfl⟩
  rw [pieces, if_neg hkeep, extendFirst_eq_modifyHead (pieces_ne_nil _ _ _ _),
    ← Nesting.quoting_step? h, bracketDepth_of_step? h]

/-- The splitter passes over a text in which the separator is hidden. -/
theorem pieces_append_of_after? (h : n.after? s = some m) (hd : n.Hides d s) (t : Text) :
    pieces d n.quoting n.depth (s ++ t) =
      (pieces d m.quoting m.depth t).modifyHead (s ++ ·) := by
  induction s generalizing n with
  | nil =>
    cases h
    exact (congrFun List.modifyHead_id _).symm
  | cons c s ih =>
    rw [Nesting.after?_cons, Option.bind_eq_some_iff] at h
    obtain ⟨n', hstep, h⟩ := h
    rw [Nesting.hides_cons] at hd
    rw [List.cons_append, pieces_cons_of_step? hstep hd.1, ih h (hd.2 n' hstep),
      List.modifyHead_modifyHead]
    rfl

/-- A text that hides the separator is one piece. -/
theorem pieces_of_passable (h : Passable s) (hd : ({} : Nesting).Hides d s) :
    pieces d .outside 0 s = [s] := by
  have hpieces := pieces_append_of_after? h.after?_eq hd []
  rw [List.append_nil] at hpieces
  refine hpieces.trans ?_
  rw [pieces, List.modifyHead_cons, List.append_nil]

/-- A text that hides the separator is the first piece before one. -/
theorem pieces_append_of_passable (h : Passable s) (hd : ({} : Nesting).Hides d s)
    (hplain : isDelimiter d = false) (t : Text) :
    pieces d .outside 0 (s ++ d :: t) = s :: pieces d .outside 0 t := by
  have hpieces := pieces_append_of_after? h.after?_eq hd (d :: t)
  refine hpieces.trans ?_
  rw [pieces, if_pos ⟨rfl, rfl, rfl, hplain⟩, List.modifyHead_cons, List.append_nil]
  rfl

theorem getLast?_ne_of_hides (h : Passable s) (hd : ({} : Nesting).Hides d s)
    (hplain : isDelimiter d = false) : s.getLast? ≠ some d := by
  intro hlast
  obtain ⟨before, rfl⟩ := List.getLast?_eq_some_iff.1 hlast
  have hafter := h.after?_eq
  rw [Nesting.after?_append] at hafter
  obtain ⟨m, hbefore, hstep⟩ := Option.bind_eq_some_iff.1 hafter
  rw [Nesting.after?_of_plain (by simpa using hplain)] at hstep
  rw [hstep] at hbefore
  exact hd before [] rfl hbefore

end DocAudit
