import DocAudit.Proofs.Source.Line
import DocAudit.Proofs.Source.Nesting

/-!
# One line of code on several lines

A header or an attribute may be written on several lines. It is broken at spaces outside quotes,
each piece stands on a line of its own with blanks around it and possibly a comment behind it, and
other lines may stand in between. Joined by spaces, the code of the lines is the text again.

* `CodeOnly`, `IsBreak`, `BrokenInto`: a text and the pieces it is broken into.
* `Carries`, `LaidOut`: the lines that hold the pieces.
* `IsLayout`: a text on several lines, within a limit.
* `codeOf_of_carries`: the code of a line is the piece on it.
* `Completes`: lines that complete what a reader has gathered so far.
* `IsLayout.completes`: the lines of a text complete the piece on the first of them.
-/

namespace DocAudit

/-! ## Pieces -/

/-- A text that is code and nothing else: it has no blanks at its ends and no comment, and it closes
the quotes it opens. -/
structure CodeOnly (t : Text) : Prop where
  trimmed : Trimmed t
  commentFree : CommentFree .outside t
  closed : Quoting.outside.after t = .outside

/-- The space between two texts may become the end of a line: it stands outside quotes, and there is
no other blank next to it. -/
structure IsBreak (before after : Text) : Prop where
  outside : Quoting.outside.after before = .outside
  last : before.getLast?.any isBlank = false
  first : after.head?.any isBlank = false

/-- The pieces of a text that is broken at some of its spaces, where `may` says of what follows a
break whether there may be one. -/
inductive BrokenInto (may : Text → Prop) : Text → List Text → Prop
  | whole (t : Text) : BrokenInto may t [t]
  | part {s t : Text} {pieces : List Text} (hbreak : IsBreak s t) (hmay : may t)
    (h : BrokenInto may t pieces) : BrokenInto may (s ++ ' ' :: t) (s :: pieces)

theorem IsBreak.codeOnly {s t : Text} (hbreak : IsBreak s t) (h : CodeOnly (s ++ ' ' :: t)) :
    CodeOnly s ∧ CodeOnly t := by
  have hs : s ≠ [] := by
    intro hs
    have hfirst := h.trimmed.first
    rw [hs, List.nil_append, List.head?_cons, Option.any_some] at hfirst
    exact absurd hfirst (by decide)
  have ht : t ≠ [] := by
    intro ht
    have hlast := h.trimmed.last
    rw [ht, List.getLast?_concat] at hlast
    exact absurd hlast (by decide)
  have hafter : CommentFree .outside (' ' :: t) := by
    have hright := h.commentFree.of_append_right
    rwa [hbreak.outside] at hright
  constructor
  · refine ⟨⟨hs, ?_, hbreak.last⟩, h.commentFree.of_append_left, hbreak.outside⟩
    have hfirst := h.trimmed.first
    rwa [List.head?_append_of_ne_nil _ hs] at hfirst
  · refine ⟨⟨ht, hbreak.first, ?_⟩, (commentFree_cons.1 hafter).2, ?_⟩
    · have hlast := h.trimmed.last
      rwa [List.getLast?_append_of_ne_nil _ (List.cons_ne_nil ' ' t),
        List.getLast?_cons_of_ne_nil ht] at hlast
    · have hclosed := h.closed
      rwa [Quoting.after_append, hbreak.outside] at hclosed

theorem CodeOnly.codeOf_eq {t : Text} (h : CodeOnly t) : codeOf t = t := by
  rw [codeOf, stripComment, stripCommentFrom_eq_self h.commentFree, h.trimmed.trim_eq]

/-! ## Lines -/

/-- The line holds a piece of code and nothing else but an indentation, blanks behind the piece, and
possibly a comment. With no piece on it, it is a blank line or a comment. -/
def Carries (line piece : Text) : Prop :=
  ∃ indent gap comment, line = indent ++ (piece ++ (gap ++ comment)) ∧ allBlank indent = true ∧
    allBlank gap = true ∧ (comment = [] ∨ ("//" : Text) <+: comment)

/-- Lines that hold some pieces in order, one each. Between two of them there may be others, of
which `filler` holds. -/
inductive LaidOut (filler : Text → Prop) : List Text → List Text → Prop
  | last {line piece : Text} (h : Carries line piece) : LaidOut filler [piece] [line]
  | next {line piece : Text} {fillers pieces ls : List Text} (h : Carries line piece)
    (hfillers : ∀ l ∈ fillers, filler l) (hrest : LaidOut filler pieces ls) :
    LaidOut filler (piece :: pieces) (line :: (fillers ++ ls))

/-- Lines on which a text stands that is broken where `may` allows it. No piece ends with a slash,
which could begin a comment, no line is the edge of a body, and at most `limit` lines follow the
first one. -/
structure IsLayout (may filler : Text → Prop) (limit : Nat) (t : Text) (pieces ls : List Text) :
    Prop where
  codeOnly : CodeOnly t
  broken : BrokenInto may t pieces
  noSlash : ∀ p ∈ pieces, p.getLast? ≠ some '/'
  laidOut : LaidOut filler pieces ls
  noBoundary : ∀ l ∈ ls, isBlockBoundary l = false
  length_le : ls.length ≤ limit + 1

section

variable {line piece : Text}

/-- A comment behind a piece of code, and the blanks around the piece, are dropped. -/
theorem codeOf_eq_of_carries (h : Carries line piece) (hfree : CommentFree .outside piece)
    (hclosed : Quoting.outside.after piece = .outside) (hfirst : piece.head?.any isBlank = false)
    (hlast : piece.getLast?.any isBlank = false) (hslash : piece.getLast? ≠ some '/') :
    codeOf line = piece := by
  obtain ⟨indent, gap, comment, heq, hindent, hgap, hcomment⟩ := h
  have hnone : '/' ∉ gap := by
    intro hmem
    exact ne_of_isBlank (List.all_eq_true.1 hgap '/' hmem) (by decide : isBlank '/' = false) rfl
  have hcode : CommentFree .outside (piece ++ gap) := by
    apply hfree.append (commentFree_of_not_mem hnone)
    intro hhead
    exact hnone (List.mem_of_head? hhead)
  have hstrip : stripComment (piece ++ (gap ++ comment)) = piece ++ gap := by
    rw [← List.append_assoc, stripComment]
    cases hcomment with
    | inl hcomment =>
      rw [hcomment, List.append_nil]
      exact stripCommentFrom_eq_self hcode
    | inr hcomment =>
      obtain ⟨rest, hrest⟩ := hcomment
      rw [← hrest]
      apply stripCommentFrom_append_comment hcode
      · rw [Quoting.after_append, hclosed, Quoting.after_blanks hgap]
      · by_cases hnil : gap = []
        · rwa [hnil, List.append_nil]
        · rw [List.getLast?_append_of_ne_nil _ hnil]
          intro hend
          exact hnone (List.mem_of_getLast? hend)
  rw [codeOf, heq, stripComment_blanks hindent, hstrip, ← List.append_assoc,
    trim_append_allBlank hgap, trim_indent hindent hfirst hlast]

/-- **The code of a line is the piece on it.** -/
theorem codeOf_of_carries (h : Carries line piece) (hcode : CodeOnly piece)
    (hslash : piece.getLast? ≠ some '/') : codeOf line = piece :=
  codeOf_eq_of_carries h hcode.commentFree hcode.closed hcode.trimmed.first hcode.trimmed.last
    hslash

theorem codeOf_of_carries_nil (h : Carries line []) : codeOf line = [] :=
  codeOf_eq_of_carries h (commentFree_of_not_mem List.not_mem_nil) rfl rfl rfl nofun

theorem isStructuredComment_of_code (h : codeOf line ≠ []) : isStructuredComment line = false := by
  rw [Bool.eq_false_iff]
  intro hcomment
  exact h (codeOf_eq_nil hcomment)

theorem isBlockBoundary_of_codeOf_eq_nil (h : codeOf line = []) : isBlockBoundary line = false := by
  rw [isBlockBoundary, h]
  decide

end

/-! ## Gathered lines -/

section

variable {may filler : Text → Prop} {limit : Nat} {whole before t : Text} {pieces ls : List Text}

/-- What a reader has gathered so far ends at a break of the whole text. -/
structure StopsAtBreak (may : Text → Prop) (whole gathered : Text) : Prop where
  ne_nil : gathered ≠ []
  exists_rest : ∃ t, whole = gathered ++ ' ' :: t ∧ may t

/-- Lines that complete what has been gathered so far, taken one after the other: each of them adds
its code after a space, or is a filler and adds nothing. -/
inductive Completes (may filler : Text → Prop) (whole : Text) : Text → List Text → Prop
  | done : Completes may filler whole whole []
  | filler {gathered line : Text} {ls : List Text} (hstop : StopsAtBreak may whole gathered)
    (hline : filler line) (h : Completes may filler whole gathered ls) :
    Completes may filler whole gathered (line :: ls)
  | code {gathered line : Text} {ls : List Text} (hstop : StopsAtBreak may whole gathered)
    (hcode : codeOf line ≠ []) (hboundary : isBlockBoundary line = false)
    (h : Completes may filler whole (gathered ++ ' ' :: codeOf line) ls) :
    Completes may filler whole gathered (line :: ls)

theorem Completes.fillers {gathered : Text} {fillers : List Text}
    (hstop : StopsAtBreak may whole gathered) (hfillers : ∀ l ∈ fillers, filler l)
    (h : Completes may filler whole gathered ls) :
    Completes may filler whole gathered (fillers ++ ls) := by
  induction fillers with
  | nil => exact h
  | cons l fillers ih =>
    apply Completes.filler hstop (hfillers l List.mem_cons_self)
    exact ih fun l' hl' => hfillers l' (List.mem_cons_of_mem l hl')

/-- The lines of the rest of a text complete what has been gathered before it and the piece on the
first of them. -/
theorem LaidOut.completes (hls : LaidOut filler pieces ls) (hbroken : BrokenInto may t pieces)
    (hwhole : whole = before ++ t) (hcode : CodeOnly t)
    (hslash : ∀ p ∈ pieces, p.getLast? ≠ some '/')
    (hboundary : ∀ l ∈ ls, isBlockBoundary l = false) :
    ∃ first later, ls = first :: later ∧ codeOf first ≠ [] ∧ codeOf first <+: t ∧
      Completes may filler whole (before ++ codeOf first) later := by
  induction hbroken generalizing before ls with
  | whole t =>
    cases hls with
    | @last line _ hline =>
      obtain rfl := codeOf_of_carries hline hcode (hslash t List.mem_cons_self)
      rw [hwhole]
      exact ⟨line, [], rfl, hcode.trimmed.ne_nil, List.prefix_rfl, Completes.done⟩
    | next hline hfillers hrest => cases hrest
  | @part s t pieces hbreak hmay hbroken ih =>
    obtain ⟨hs, ht⟩ := hbreak.codeOnly hcode
    cases hls with
    | last hline => cases hbroken
    | @next line _ fillers _ ls hline hfillers hrest =>
      obtain rfl := codeOf_of_carries hline hs (hslash s List.mem_cons_self)
      have hwhole' : whole = (before ++ codeOf line) ++ ' ' :: t :=
        hwhole.trans (List.append_assoc before (codeOf line) (' ' :: t)).symm
      have hstop : StopsAtBreak may whole (before ++ codeOf line) :=
        ⟨List.append_ne_nil_of_right_ne_nil before hs.trimmed.ne_nil, t, hwhole', hmay⟩
      have hlater : ∀ l ∈ ls, isBlockBoundary l = false := by
        intro l hl
        exact hboundary l (List.mem_cons_of_mem line (List.mem_append_right fillers hl))
      obtain ⟨first, later, hfirst, hne, -, hcompletes⟩ := ih hrest
        (hwhole'.trans (List.append_cons _ _ _)) ht
        (fun p hp => hslash p (List.mem_cons_of_mem _ hp)) hlater
      rw [← List.append_cons] at hcompletes
      refine ⟨line, fillers ++ ls, rfl, hs.trimmed.ne_nil, List.prefix_append _ (' ' :: t), ?_⟩
      rw [hfirst]
      apply Completes.fillers hstop hfillers
      exact Completes.code hstop hne (hlater first (hfirst ▸ List.mem_cons_self)) hcompletes

/-- **The lines of a text complete the piece on the first of them**, which is the beginning of the
text, and they are within the limit. -/
theorem IsLayout.completes (h : IsLayout may filler limit t pieces ls) :
    ∃ first later spare, ls = first :: later ∧ limit = later.length + spare ∧ codeOf first ≠ [] ∧
      codeOf first <+: t ∧ Completes may filler t (codeOf first) later := by
  obtain ⟨first, later, hls, hne, hprefix, hcompletes⟩ :=
    h.laidOut.completes h.broken (List.nil_append t).symm h.codeOnly h.noSlash h.noBoundary
  have hlength := h.length_le
  rw [hls, List.length_cons] at hlength
  obtain ⟨spare, hspare⟩ := Nat.exists_eq_add_of_le (Nat.le_of_succ_le_succ hlength)
  exact ⟨first, later, spare, hls, hspare, hne, hprefix, hcompletes⟩

end

end DocAudit
