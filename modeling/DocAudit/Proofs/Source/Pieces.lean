import DocAudit.Proofs.Source.Nesting
import DocAudit.Source.Parameter
import Mathlib.Data.List.Forall2

/-!
# Pieces at top level

A text is cut at the separators that stand outside quotes, parentheses and brackets. Whatever is
left open in the text, the reader stands at a cut where it stood at the start: outside quotes, with
no bracket open. So each piece is read on its own as it was read in the text, and is one piece.

* `pieces_step`: what one character does to the pieces.
* `intercalate_pieces`: the pieces with separators between them are the text.
* `exists_pieces_eq`: each piece is one piece.
* `allBlank_pieces_iff`: when all pieces are blank.
* `ParameterClause.read?_eq_none_iff`: the pieces that declare no parameter.
* `splitTopLevel_atomic`: all of this for the splitter, and for a list of parameters.
-/

namespace DocAudit

variable {separator : Char} {q : Quoting} {depth : Nat} {c : Char} {t piece : Text}

/-- Blanks and separators, and nothing else. -/
def OnlySeparates (separator : Char) (t : Text) : Prop :=
  ∀ c ∈ t, isBlank c = true ∨ c = separator

/-- Whether a piece of a parameter list declares a parameter: it holds more than blanks and
colons. -/
def declaresParameter (piece : Text) : Bool := piece.any fun c => !isBlank c && c != ':'

/-! ## One character -/

/-- A character is a separator at top level and ends a piece, or it belongs to the first piece and
moves the reader on. Which of them does not depend on what follows. -/
theorem pieces_step (separator : Char) (q : Quoting) (depth : Nat) (c : Char) :
    (c = separator ∧ ∀ t, pieces separator q depth (c :: t) =
        [] :: pieces separator .outside 0 t) ∨
      ∃ q' depth', ∀ t, pieces separator q depth (c :: t) =
        extendFirst c (pieces separator q' depth' t) := by
  by_cases h : q = .outside ∧ depth = 0 ∧ c = separator ∧ isDelimiter c = false
  · left
    refine ⟨h.2.2.1, fun t => ?_⟩
    rw [pieces, if_pos h, h.1, h.2.1]
  · right
    refine ⟨q.step c, if q = .outside then bracketDepth depth c else depth, fun t => ?_⟩
    rw [pieces, if_neg h]

/-! ## All of the text -/

/-- **Splitting loses nothing**: the pieces with separators between them are the text. -/
theorem intercalate_pieces (separator : Char) (q : Quoting) (depth : Nat) (t : Text) :
    List.intercalate [separator] (pieces separator q depth t) = t := by
  induction t generalizing q depth with
  | nil => simp [pieces]
  | cons c t ih =>
    rcases pieces_step separator q depth c with ⟨hc, hcut⟩ | ⟨q', depth', hgo⟩
    · have hrest := ih .outside 0
      obtain ⟨first, others, hpieces⟩ :=
        List.exists_cons_of_ne_nil (pieces_ne_nil separator .outside 0 t)
      rw [hpieces] at hrest
      rw [hcut, hpieces, List.intercalate_cons_cons, hrest, hc]
      simp
    · have hrest := ih q' depth'
      obtain ⟨first, others, hpieces⟩ :=
        List.exists_cons_of_ne_nil (pieces_ne_nil separator q' depth' t)
      rw [hpieces] at hrest
      rw [hgo, hpieces, extendFirst, ← hrest]
      cases others with
      | nil => simp
      | cons second others => simp [List.intercalate_cons_cons]

theorem exists_mem_pieces (hc : c ∈ t) (hne : c ≠ separator) :
    ∃ piece ∈ pieces separator q depth t, c ∈ piece := by
  induction t generalizing q depth with
  | nil => simp at hc
  | cons d t ih =>
    rcases pieces_step separator q depth d with ⟨hd, hcut⟩ | ⟨q', depth', hgo⟩
    · have hct : c ∈ t := (List.mem_cons.1 hc).resolve_left fun h => hne (h.trans hd)
      obtain ⟨piece, hpiece, hmem⟩ := @ih .outside 0 hct
      rw [hcut]
      exact ⟨piece, List.mem_cons_of_mem _ hpiece, hmem⟩
    · obtain ⟨first, others, hpieces⟩ :=
        List.exists_cons_of_ne_nil (pieces_ne_nil separator q' depth' t)
      rw [hgo, hpieces, extendFirst]
      by_cases hd : c = d
      · exact ⟨d :: first, by simp, by simp [hd]⟩
      · have hct : c ∈ t := (List.mem_cons.1 hc).resolve_left hd
        obtain ⟨piece, hpiece, hmem⟩ := @ih q' depth' hct
        rw [hpieces] at hpiece
        rcases List.mem_cons.1 hpiece with h | h
        · exact ⟨d :: first, by simp, by simp [← h, hmem]⟩
        · exact ⟨piece, by simp [h], hmem⟩

/-! ## Pieces of pieces -/

/-- **Each piece is one piece**: the first for a reader that starts where this one did, and every
other for a reader that starts outside quotes with nothing open. -/
theorem exists_pieces_eq (separator : Char) (q : Quoting) (depth : Nat) (t : Text) :
    ∃ first others, pieces separator q depth t = first :: others ∧
      pieces separator q depth first = [first] ∧
      ∀ piece ∈ others, pieces separator .outside 0 piece = [piece] := by
  induction t generalizing q depth with
  | nil => exact ⟨[], [], rfl, rfl, by simp⟩
  | cons c t ih =>
    rcases pieces_step separator q depth c with ⟨-, hcut⟩ | ⟨q', depth', hgo⟩
    · -- The reader starts again behind a separator.
      obtain ⟨first, others, hpieces, hfirst, hothers⟩ := ih .outside 0
      refine ⟨[], first :: others, by rw [hcut, hpieces], rfl, ?_⟩
      intro piece hpiece
      rcases List.mem_cons.1 hpiece with h | h
      · rw [h, hfirst]
      · exact hothers piece h
    · obtain ⟨first, others, hpieces, hfirst, hothers⟩ := ih q' depth'
      refine ⟨c :: first, others, ?_, ?_, hothers⟩
      · rw [hgo, hpieces, extendFirst]
      · rw [hgo, hfirst, extendFirst]

theorem pieces_of_mem_pieces (h : piece ∈ pieces separator .outside 0 t) :
    pieces separator .outside 0 piece = [piece] := by
  obtain ⟨first, others, hpieces, hfirst, hothers⟩ := exists_pieces_eq separator .outside 0 t
  rw [hpieces] at h
  rcases List.mem_cons.1 h with h | h
  · rw [h, hfirst]
  · exact hothers piece h

/-! ## Blank pieces -/

theorem isDelimiter_of_isBlank (h : isBlank c = true) : isDelimiter c = false := by
  rw [Bool.eq_false_iff]
  intro hc
  simp only [isDelimiter, Bool.or_eq_true, decide_eq_true_eq] at hc
  rcases hc with ((((hc | hc) | hc) | hc) | hc) | hc <;>
    · rw [hc] at h
      exact absurd h (by decide)

/-- **All pieces are blank exactly if the text has nothing but blanks and separators.** -/
theorem allBlank_pieces_iff (hplain : isDelimiter separator = false) :
    (∀ piece ∈ pieces separator .outside 0 t, allBlank piece = true) ↔
      OnlySeparates separator t := by
  constructor
  · intro h c hc
    by_cases hne : c = separator
    · exact Or.inr hne
    · obtain ⟨piece, hpiece, hmem⟩ := exists_mem_pieces hc hne
      exact Or.inl (List.all_eq_true.1 (h piece hpiece) c hmem)
  · intro h
    induction t with
    | nil => simp [pieces, allBlank]
    | cons c t ih =>
      have hrest := ih fun d hd => h d (List.mem_cons_of_mem c hd)
      by_cases hc : c = separator
      · rw [hc, pieces, if_pos ⟨rfl, rfl, rfl, hplain⟩]
        exact List.forall_mem_cons.2 ⟨rfl, hrest⟩
      · have hblank : isBlank c = true := (h c List.mem_cons_self).resolve_right hc
        have hstep := Nesting.step?_of_plain (isDelimiter_of_isBlank hblank) {}
        have hpieces : pieces separator .outside 0 (c :: t) =
            (pieces separator .outside 0 t).modifyHead (c :: ·) :=
          pieces_cons_of_step? hstep (fun heq => hc heq.1) t
        obtain ⟨first, others, hcons⟩ :=
          List.exists_cons_of_ne_nil (pieces_ne_nil separator .outside 0 t)
        rw [hcons] at hpieces hrest
        obtain ⟨hfirst, hothers⟩ := List.forall_mem_cons.1 hrest
        rw [hpieces, List.modifyHead_cons]
        refine List.forall_mem_cons.2 ⟨?_, hothers⟩
        rw [allBlank, List.all_cons, hblank]
        exact hfirst

theorem splitTopLevel_eq_nil_iff (hplain : isDelimiter separator = false) :
    splitTopLevel separator t = [] ↔ OnlySeparates separator t := by
  rw [← allBlank_pieces_iff hplain, ← List.all_eq_true, splitTopLevel]
  by_cases h : (pieces separator .outside 0 t).all allBlank = true
  · simp [h]
  · simp [h, pieces_ne_nil]

theorem splitTopLevel_eq_pieces (h : splitTopLevel separator t ≠ []) :
    splitTopLevel separator t = pieces separator .outside 0 t := by
  rw [splitTopLevel] at h ⊢
  split
  · next hblank => simp [hblank] at h
  · rfl

theorem splitTopLevel_eq_singleton (h : piece ∈ splitTopLevel separator t)
    (hblank : allBlank piece = false) : splitTopLevel separator piece = [piece] := by
  rw [splitTopLevel_eq_pieces (List.ne_nil_of_mem h)] at h
  rw [splitTopLevel, pieces_of_mem_pieces h]
  simp [hblank]

/-! ## Parameters -/

theorem onlySeparates_trim_iff :
    OnlySeparates separator (trim t) ↔ OnlySeparates separator t := by
  constructor
  · intro h c hc
    by_cases hb : isBlank c = true
    · exact Or.inl hb
    · exact h c (mem_trim (Bool.eq_false_iff.2 hb) hc)
  · intro h c hc
    exact h c (trim_subset t hc)

namespace ParameterClause

theorem read?_eq_none_iff : read? piece = none ↔ OnlySeparates ':' piece := by
  have hcolon : isDelimiter ':' = false := by decide
  rw [← onlySeparates_trim_iff, ← splitTopLevel_eq_nil_iff hcolon, read?]
  cases splitTopLevel ':' (trim piece) with
  | nil => simp
  | cons name others => simp

theorem isSome_read? (piece : Text) : (read? piece).isSome = declaresParameter piece := by
  rw [Bool.eq_iff_iff, Option.isSome_iff_ne_none, ne_eq, read?_eq_none_iff, OnlySeparates,
    declaresParameter]
  simp [List.any_eq_true]

theorem forall₂_filterMap_read? (ls : List Text) :
    List.Forall₂ (fun piece p => read? piece = some p) (ls.filter declaresParameter)
      (ls.filterMap read?) := by
  induction ls with
  | nil => exact List.Forall₂.nil
  | cons piece ls ih =>
    cases h : read? piece with
    | none =>
      have hno : ¬ declaresParameter piece = true := by simp [← isSome_read?, h]
      rw [List.filter_cons_of_neg hno, List.filterMap_cons_none h]
      exact ih
    | some p =>
      have hyes : declaresParameter piece = true := by simp [← isSome_read?, h]
      rw [List.filter_cons_of_pos hyes, List.filterMap_cons_some h]
      exact List.Forall₂.cons h ih

end ParameterClause

/-- **Splitting at top level loses nothing, and its pieces cannot be split.** There are no pieces
exactly if the text has nothing but blanks and separators. Otherwise the pieces with separators
between them are the text, and each of them that is not blank is one piece. A list of parameters has
one parameter for each piece with more than blanks and colons, in order. -/
theorem splitTopLevel_atomic (hplain : isDelimiter separator = false) (t : Text) :
    (splitTopLevel separator t = [] ↔ OnlySeparates separator t) ∧
      (splitTopLevel separator t ≠ [] →
        List.intercalate [separator] (splitTopLevel separator t) = t ∧
          ∀ piece ∈ splitTopLevel separator t, allBlank piece = false →
            splitTopLevel separator piece = [piece]) ∧
      List.Forall₂ (fun piece p => ParameterClause.read? piece = some p)
        ((splitTopLevel ';' t).filter declaresParameter) (ParameterClause.readAll t) := by
  refine ⟨splitTopLevel_eq_nil_iff hplain, ?_, ParameterClause.forall₂_filterMap_read? _⟩
  intro hne
  constructor
  · rw [splitTopLevel_eq_pieces hne, intercalate_pieces]
  · intro piece hpiece hblank
    exact splitTopLevel_eq_singleton hpiece hblank

/-- Text that closes what it did not open, with separators in quotes, in brackets and on their
own. -/
def unevenList : Text := ") A ;; \"B;C\": Code[2; 3]; : ;'"

/-- The unevenness of the text does not reach over a cut. -/
theorem splitTopLevel_atomic_unevenList :
    isDelimiter ';' = false ∧ List.intercalate [';'] (splitTopLevel ';' unevenList) = unevenList ∧
      splitTopLevel ';' unevenList = [") A ", "", " \"B;C\": Code[2; 3]", " : ", "'"] ∧
      (ParameterClause.readAll unevenList).length = 3 := by
  obtain ⟨-, hsplit, hparameters⟩ := @splitTopLevel_atomic ';' (by decide) unevenList
  have hpieces : splitTopLevel ';' unevenList =
      [") A ", "", " \"B;C\": Code[2; 3]", " : ", "'"] := by decide +kernel
  refine ⟨by decide, (hsplit (by simp [hpieces])).1, hpieces, ?_⟩
  rw [← hparameters.length_eq, hpieces]
  decide

/-- A colon alone is a piece that is not blank, and declares no parameter. -/
theorem ParameterClause.not_forall_length_readAll :
    ¬ ∀ t, (readAll t).length = ((splitTopLevel ';' t).filter (!allBlank ·)).length := by
  intro h
  have hcolon := h [':']
  revert hcolon
  decide

end DocAudit
