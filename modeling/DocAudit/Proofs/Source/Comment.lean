import DocAudit.Proofs.Source.Nesting

/-!
# Where a comment starts

A line is cut in front of the first two slashes that stand together outside quotes. Which part is
kept can be said without a reader: no comment starts in it, and what follows it is a comment with
all of its slashes. The reader finds this cut, and so does one that goes over the line once and
looks back instead of ahead.

* `StartsComment`, `CommentCut`: a text cut in front of its comment.
* `stripCommentFrom_eq_iff`: there is one such cut, and it is where the reader stops.
* `commentStart?`: the place of the cut, for a reader that remembers the last slash.
* `stripComment_exact`: what is kept of a line.
-/

namespace DocAudit

/-- What follows `kept` is a whole comment: it starts outside quotes, and none of its slashes is
left behind. -/
structure StartsComment (q : Quoting) (kept dropped : Text) : Prop where
  slashes : ("//" : Text) <+: dropped
  outside : q.after kept = .outside
  noSlash : kept.getLast? ≠ some '/'

/-- A text is cut in front of its comment, or at its end if it has none. -/
structure CommentCut (q : Quoting) (kept dropped : Text) : Prop where
  commentFree : CommentFree q kept
  comment : dropped = [] ∨ StartsComment q kept dropped

variable {q : Quoting} {c : Char} {t kept dropped : Text}

/-! ## The cut -/

@[simp] theorem Quoting.step_slash (q : Quoting) : q.step '/' = q := by
  cases q <;> rfl

/-- A comment behind a text is one behind a longer text, unless the character in front makes it
start earlier. -/
theorem StartsComment.cons (h : StartsComment (q.step c) kept dropped)
    (hc : ¬ (q = .outside ∧ c = '/' ∧ (kept ++ dropped).head? = some '/')) :
    StartsComment q (c :: kept) dropped where
  slashes := h.slashes
  outside := h.outside
  noSlash := by
    cases kept with
    | nil =>
      intro hlast
      obtain rfl : c = '/' := by simpa using hlast
      have hq : q = .outside := by simpa using h.outside
      obtain ⟨rest, hrest⟩ := h.slashes
      -- The slash would be the first of three.
      apply hc
      simp [hq, ← hrest]
    | cons d kept =>
      rw [List.getLast?_cons_cons]
      exact h.noSlash

theorem exists_dropped (q : Quoting) (t : Text) :
    ∃ dropped, t = stripCommentFrom q t ++ dropped ∧
      (dropped = [] ∨ StartsComment q (stripCommentFrom q t) dropped) := by
  induction t generalizing q with
  | nil => exact ⟨[], rfl, Or.inl rfl⟩
  | cons c t ih =>
    rw [stripCommentFrom]
    by_cases hc : q = .outside ∧ c = '/' ∧ t.head? = some '/'
    · obtain ⟨hq, rfl, hhead⟩ := hc
      obtain ⟨rest, rfl⟩ := List.head?_eq_some_iff.1 hhead
      rw [if_pos ⟨hq, rfl, hhead⟩]
      exact ⟨_, rfl, Or.inr ⟨⟨rest, rfl⟩, hq, (Option.some_ne_none '/').symm⟩⟩
    · rw [if_neg hc]
      obtain ⟨dropped, heq, hdropped⟩ := ih (q.step c)
      refine ⟨dropped, by rw [List.cons_append, ← heq], hdropped.imp_right ?_⟩
      intro hcomment
      apply hcomment.cons
      rwa [← heq]

theorem CommentCut.stripCommentFrom_eq (h : CommentCut q kept dropped) :
    stripCommentFrom q (kept ++ dropped) = kept := by
  cases h.comment with
  | inl hnil => rw [hnil, List.append_nil, stripCommentFrom_eq_self h.commentFree]
  | inr hcomment =>
    obtain ⟨rest, rfl⟩ := hcomment.slashes
    exact stripCommentFrom_append_comment h.commentFree hcomment.outside hcomment.noSlash rest

/-- **There is one cut in front of the comment, and it is where the reader stops.** -/
theorem stripCommentFrom_eq_iff :
    stripCommentFrom q t = kept ↔ ∃ dropped, t = kept ++ dropped ∧ CommentCut q kept dropped := by
  constructor
  · intro h
    obtain ⟨dropped, heq, hdropped⟩ := exists_dropped q t
    rw [h] at heq hdropped
    exact ⟨dropped, heq, h ▸ commentFree_stripCommentFrom q t, hdropped⟩
  · intro h
    obtain ⟨dropped, rfl, hcut⟩ := h
    exact hcut.stripCommentFrom_eq

/-! ## Looking back -/

/-- Where a comment starts, for a reader that stands at `q` and in front of character `n`, and that
remembers with `slash` whether it has just read a slash outside quotes. At the second slash in a row
it has to go back by one. -/
def commentStart? (q : Quoting) (slash : Bool) (n : Nat) : Text → Option Nat
  | [] => none
  | c :: rest =>
    if q = .outside ∧ c = '/' then
      if slash then some (n - 1) else commentStart? q true (n + 1) rest
    else commentStart? (q.step c) false (n + 1) rest

theorem commentStart?_of_head? (h : t.head? ≠ some '/') (q : Quoting) (slash : Bool) (n : Nat) :
    commentStart? q slash n t = commentStart? q false n t := by
  cases t with
  | nil => rfl
  | cons c t =>
    have hc : ¬ (q = .outside ∧ c = '/') := by
      intro hc
      apply h
      simp [hc.2]
    rw [commentStart?, commentStart?, if_neg hc, if_neg hc]

/-- Looking back and looking ahead lead to the same cut. -/
theorem take_commentStart? (q : Quoting) (before t : Text) :
    (before ++ t).take ((commentStart? q false before.length t).getD (before ++ t).length) =
      before ++ stripCommentFrom q t := by
  -- What has been read stands in front, so that its length is the place of the reader.
  induction t generalizing q before with
  | nil => simp [commentStart?, stripCommentFrom]
  | cons c t ih =>
    have ih := ih (q.step c) (before ++ [c])
    rw [List.append_assoc, List.append_assoc, List.singleton_append, List.singleton_append,
      List.length_append, List.length_singleton] at ih
    rw [commentStart?, stripCommentFrom]
    by_cases hc : q = .outside ∧ c = '/'
    · obtain ⟨rfl, rfl⟩ := hc
      rw [Quoting.step_slash] at ih
      by_cases hhead : t.head? = some '/'
      · obtain ⟨t, rfl⟩ := List.head?_eq_some_iff.1 hhead
        simp [commentStart?]
      · rw [commentStart?_of_head? hhead]
        simpa [hhead] using ih
    · have hstop : ¬ (q = .outside ∧ c = '/' ∧ t.head? = some '/') := by
        intro hstop
        exact hc ⟨hstop.1, hstop.2.1⟩
      rw [if_neg hc, if_neg hstop, ih]

/-! ## Lines -/

/-- **Comments are cut off exactly.** What is kept of a line is the one part of it in which no
comment starts and that is followed by nothing or by a whole comment. A reader that looks back cuts
at the same place, cutting a second time changes nothing, and a comment behind code that is outside
quotes at its end and does not end with a slash is cut off again. -/
theorem stripComment_exact (line : Text) :
    (∀ kept, stripComment line = kept ↔
        ∃ dropped, line = kept ++ dropped ∧ CommentCut .outside kept dropped) ∧
      stripComment line = line.take ((commentStart? .outside false 0 line).getD line.length) ∧
      stripComment (stripComment line) = stripComment line ∧
      ∀ comment, CommentFree .outside line → Quoting.outside.after line = .outside →
        line.getLast? ≠ some '/' → stripComment (line ++ (("//" : Text) ++ comment)) = line := by
  refine ⟨?_, ?_, ?_, ?_⟩
  · intro kept
    exact stripCommentFrom_eq_iff
  · exact (take_commentStart? .outside [] line).symm
  · exact stripCommentFrom_eq_self (commentFree_stripCommentFrom .outside line)
  · intro comment hfree hclosed hlast
    apply CommentCut.stripCommentFrom_eq
    exact ⟨hfree, Or.inr ⟨⟨comment, rfl⟩, hclosed, hlast⟩⟩

/-- Code with slashes in a literal and in a name, and with a quote of the other kind in each. -/
def quotedSlashes : Text := "Link := 'http://\"x' + Rec.\"it's // b\" / 2;"

theorem stripComment_exact_quotedSlashes :
    CommentFree .outside quotedSlashes ∧ Quoting.outside.after quotedSlashes = .outside ∧
      quotedSlashes.getLast? ≠ some '/' ∧
      stripComment (quotedSlashes ++ (("//" : Text) ++ "// it's \"//")) = quotedSlashes := by
  have hfree : CommentFree .outside quotedSlashes := by decide
  have hclosed : Quoting.outside.after quotedSlashes = .outside := by decide
  have hlast : quotedSlashes.getLast? ≠ some '/' := by decide
  refine ⟨hfree, hclosed, hlast, ?_⟩
  exact (stripComment_exact quotedSlashes).2.2.2 "// it's \"//" hfree hclosed hlast

end DocAudit
