import DocAudit.Proofs.Documentation.Above
import DocAudit.Proofs.Reading.Pass
import DocAudit.Proofs.Source.Line
import DocAudit.Skeleton

/-!
# Where a skeleton goes

A skeleton takes the place of a bare comment marker. The lines above stay where they are and those
below move down, and from the declaration the walk comes upon the skeleton as it came upon the
marker.

* `SourceFile.replaceLine`: the file with some lines in place of one.
* `SourceFile.declarationFrom_code`: no comment stands between the marker and the declaration.
* `SourceFile.documentationAbove_replaceLine`: the skeleton documents the declaration.
-/

namespace DocAudit

namespace SourceFile

variable {f : SourceFile} {n : Nat} {ls : List Text}

/-! ## The longer file -/

/-- The file with some lines in place of line `n`. -/
def replaceLine (f : SourceFile) (n : Nat) (ls : List Text) : SourceFile :=
  { f with lines := f.lines.take n ++ ls ++ f.lines.drop (n + 1) }

theorem line?_replaceLine_above (hn : n < f.lineCount) {i : Nat} (hi : i < n) :
    (f.replaceLine n ls).line? i = f.line? i := by
  have hlen : (f.lines.take n).length = n := List.length_take_of_le (Nat.le_of_lt hn)
  rw [line?, replaceLine, List.append_assoc, List.getElem?_append_left (by rw [hlen]; exact hi),
    List.getElem?_take_of_lt hi]
  rfl

theorem line?_replaceLine_new (hn : n < f.lineCount) {i : Nat} (hi : i < ls.length) :
    (f.replaceLine n ls).line? (n + i) = ls[i]? := by
  have hlen : (f.lines.take n).length = n := List.length_take_of_le (Nat.le_of_lt hn)
  rw [line?, replaceLine, List.append_assoc,
    List.getElem?_append_right (by rw [hlen]; exact Nat.le_add_right n i), hlen,
    Nat.add_sub_cancel_left, List.getElem?_append_left hi]

theorem linesFrom_replaceLine (hn : n < f.lineCount) (j : Nat) :
    (f.replaceLine n ls).linesFrom (n + ls.length + j) = f.linesFrom (n + 1 + j) := by
  have hlen : (f.lines.take n ++ ls).length = n + ls.length := by
    rw [List.length_append, List.length_take_of_le (Nat.le_of_lt hn)]
  rw [linesFrom, replaceLine, ← hlen, List.drop_length_add_append, List.drop_drop, linesFrom]

theorem line?_replaceLine_below (hn : n < f.lineCount) (j : Nat) :
    (f.replaceLine n ls).line? (n + ls.length + j) = f.line? (n + 1 + j) := by
  rw [← head?_linesFrom, linesFrom_replaceLine hn, head?_linesFrom]

theorem logicalLine?_replaceLine (hn : n < f.lineCount) (j : Nat) :
    (f.replaceLine n ls).logicalLine? (n + ls.length + j) = f.logicalLine? (n + 1 + j) := by
  rw [logicalLine?, logicalLine?, line?_replaceLine_below hn, signatureAt, signatureAt,
    linesFrom_replaceLine hn]

/-! ## From the marker down to the declaration -/

/-- The way to the declaration passes over attributes and blank lines, so that it meets no
comment. -/
theorem declarationFrom_code (f : SourceFile) (n : Nat) :
    n ≤ declarationFrom n (f.linesFrom n) ∧
      ∀ i, n ≤ i → i < declarationFrom n (f.linesFrom n) → ∀ line, f.line? i = some line →
        isStructuredComment line = false := by
  -- Every step leaves fewer lines.
  induction hm : f.lineCount - n using Nat.strongRecOn generalizing n with
  | ind m ih =>
    cases hl : f.line? n with
    | none =>
      rw [linesFrom_eq_nil_iff.2 hl, declarationFrom]
      exact ⟨Nat.le_refl n, fun i h1 h2 => by omega⟩
    | some line =>
      have hn := line?_lt hl
      have hlines := linesFrom_eq_cons hl
      rw [hlines, declarationFrom]
      cases ha : readAttribute? (line :: f.linesFrom (n + 1)) with
      | some found =>
        obtain ⟨whole, extra⟩ := found
        simp only [drop_linesFrom]
        obtain ⟨hle, hcode⟩ := ih _ (by omega) (n + 1 + extra) rfl
        refine ⟨by omega, ?_⟩
        intro i h1 h2 line' hl'
        have hat : f.attributeAt? n = some (whole, n + extra) :=
          attributeAt?_eq_some_iff.2 ⟨extra, by rw [hlines]; exact ha, rfl⟩
        rcases Nat.lt_or_ge (n + extra) i with hi | hi
        · exact hcode i (by omega) h2 line' hl'
        · rcases Nat.eq_or_lt_of_le h1 with rfl | h1
          · rw [hl] at hl'
            cases hl'
            have hopens := (attributeAt?_le hat).2.2.2
            rw [hl] at hopens
            by_contra hs
            rw [Bool.not_eq_false] at hs
            rw [Option.any_some, opensAttribute_eq_false hs] at hopens
            cases hopens
          · exact (attributeAt?_code hat h1 hi hl').2
      | none =>
        simp only
        by_cases hb : allBlank line = true
        · rw [if_pos hb]
          obtain ⟨hle, hcode⟩ := ih _ (by omega) (n + 1) rfl
          refine ⟨by omega, ?_⟩
          intro i h1 h2 line' hl'
          rcases Nat.eq_or_lt_of_le h1 with rfl | h1
          · rw [hl] at hl'
            cases hl'
            exact isStructuredComment_eq_false_of_allBlank hb
          · exact hcode i h1 h2 line' hl'
        · rw [if_neg hb]
          exact ⟨Nat.le_refl n, fun i h1 h2 => by omega⟩

/-! ## From the declaration up to the skeleton -/

section Walk

variable {marker : Text} (hm : f.line? n = some marker) (hs : isStructuredComment marker = true)
include hm hs

/-- An attribute below a comment ends below it too, and is found in the longer file. -/
theorem attributeEndingAt?_replaceLine (ls : List Text) {j first : Nat}
    (h : f.attributeEndingAt? (n + 1 + j) = some first) :
    ∃ i < j, first = n + 1 + i ∧
      (f.replaceLine n ls).attributeEndingAt? (n + ls.length + j) = some (n + ls.length + i) := by
  have hn := line?_lt hm
  obtain ⟨hlt, ⟨whole, ha⟩, hbetween⟩ := attributeEndingAt?_eq_some_iff.1 h
  have hbelow : n < first := by
    rcases Nat.lt_trichotomy first n with hfirst | rfl | hfirst
    · have hcode := (attributeAt?_code ha hfirst (by omega) hm).2
      rw [hs] at hcode
      cases hcode
    · have hopens := (attributeAt?_le ha).2.2.2
      rw [hm, Option.any_some, opensAttribute_eq_false hs] at hopens
      cases hopens
    · exact hfirst
  obtain ⟨i, rfl⟩ := Nat.exists_eq_add_of_lt hbelow
  refine ⟨i, by omega, by omega, attributeEndingAt?_eq_some_iff.2 ⟨by omega, ⟨whole, ?_⟩, ?_⟩⟩
  · have hg := @attributeAt?_congr f _ _ _ (f.replaceLine n ls) (n + ls.length + i) ha
      fun t ht => by
        rw [Nat.add_assoc, line?_replaceLine_below hn]
        congr 1
        omega
    rw [show n + ls.length + i + (n + 1 + j - (n + i + 1)) = n + ls.length + j by omega] at hg
    exact hg
  · intro k h1 h2
    obtain ⟨t, rfl⟩ := Nat.exists_eq_add_of_lt h1
    rw [show n + ls.length + i + t + 1 = n + ls.length + (i + t + 1) by omega,
      line?_replaceLine_below hn]
    exact hbetween _ (by omega) (by omega)

/-- The walk from below either ends before it comes to the marker, or comes to the marker in the
file and to the lines in its place in the longer file. -/
theorem commentsAbove_replaceLine (ls : List Text) (j : Nat)
    (hcode : ∀ i < j, ∀ line, f.line? (n + 1 + i) = some line → isStructuredComment line = false) :
    f.commentsAbove (n + 1 + j) = [] ∨
      (f.commentsAbove (n + 1 + j) = f.commentsAbove (n + 1) ∧
        (f.replaceLine n ls).commentsAbove (n + ls.length + j) =
          (f.replaceLine n ls).commentsAbove (n + ls.length)) := by
  have hn := line?_lt hm
  induction j using Nat.strongRecOn with
  | ind j ih =>
    cases j with
    | zero => exact Or.inr ⟨rfl, rfl⟩
    | succ j =>
      rw [← Nat.add_assoc, ← Nat.add_assoc]
      have hline : (f.replaceLine n ls).line? (n + ls.length + j) = f.line? (n + 1 + j) :=
        line?_replaceLine_below hn j
      cases hl : f.line? (n + 1 + j) with
      | none => exact Or.inl (commentsAbove_of_none hl)
      | some line =>
        have hc := commentText?_eq_none (hcode j (Nat.lt_succ_self j) line hl)
        rw [hl] at hline
        by_cases hp : (allBlank line || isAttribute line) = true
        · rw [commentsAbove_of_passed hl hc hp, commentsAbove_of_passed hline hc hp]
          apply ih j (Nat.lt_succ_self j)
          intro i hi
          exact hcode i (Nat.lt_succ_of_lt hi)
        · cases ha : f.attributeEndingAt? (n + 1 + j) with
          | some first =>
            obtain ⟨i, hi, rfl, hg⟩ := attributeEndingAt?_replaceLine hm hs ls ha
            rw [commentsAbove_of_attribute hl hc hp ha, commentsAbove_of_attribute hline hc hp hg]
            apply ih i (Nat.lt_succ_of_lt hi)
            intro k hk
            exact hcode k (by omega)
          | none => exact Or.inl (commentsAbove_of_stop hl hc hp ha)

end Walk

/-- **The lines in place of the marker document the declaration**, if the marker was all its
documentation. -/
theorem documentationAbove_replaceLine {texts : List Text} {marker : Text}
    (hm : f.line? n = some marker) (hbare : trim marker = commentMarker)
    (hls : ls.map commentText? = texts.map some) (htexts : texts ≠ []) (j : Nat)
    (hcode : ∀ i < j, ∀ line, f.line? (n + 1 + i) = some line → isStructuredComment line = false)
    (hdoc : f.documentationAbove (n + 1 + j) = some []) :
    (f.replaceLine n ls).documentationAbove (n + ls.length + j) = some (joinLines texts) := by
  have hn := line?_lt hm
  have htext : commentText? marker = some [] := by
    rw [commentText?, hbare]
    rfl
  have hs : isStructuredComment marker = true := by
    rw [← commentText?_isSome, htext]
    rfl
  have hmarker := commentsAbove_of_comment hm htext
  rcases commentsAbove_replaceLine hm hs ls j hcode with hnil | ⟨hwalk, hwalk'⟩
  · rw [documentationAbove, hnil] at hdoc
    cases hdoc
  · have habove : f.commentsAbove n = [] := by
      rw [documentationAbove, hwalk, hmarker] at hdoc
      cases hrest : f.commentsAbove n with
      | nil => rfl
      | cons comment rest =>
        -- A second comment would leave a line feed in the text.
        rw [hrest] at hdoc
        simp only [Option.some.injEq] at hdoc
        refine absurd hdoc (joinLines_ne_nil_of_two_le ?_)
        simp only [List.length_map, List.length_reverse, List.length_cons]
        omega
    have hcomments : ((f.replaceLine n ls).commentsAbove (n + ls.length + j)).map (·.2) =
        texts.reverse := by
      rw [hwalk', commentsAbove_of_comments (fun i hi => line?_replaceLine_new hn hi) hls,
        commentsAbove_congr fun i hi => line?_replaceLine_above hn hi, habove, List.map_nil,
        List.append_nil]
    rw [documentationAbove]
    cases hfound : (f.replaceLine n ls).commentsAbove (n + ls.length + j) with
    | nil =>
      rw [hfound, List.map_nil] at hcomments
      exact absurd (List.reverse_eq_nil_iff.1 hcomments.symm) htexts
    | cons comment rest =>
      simp only
      rw [← hfound, List.map_reverse, hcomments, List.reverse_reverse]

end SourceFile

end DocAudit
