import DocAudit.Documentation.Above
import DocAudit.Proofs.Source.BlankLine

/-!
# The walk up to the documentation

`SourceFile.commentsAbove` walks upwards from a declaration. One lemma for each kind of line says
where the walk goes next.

* `commentsAbove_of_comment`, `commentsAbove_of_passed`, `commentsAbove_of_attribute`,
  `commentsAbove_of_stop`: one step of the walk.
* `commentsAbove_congr`, `of_mem_commentsAbove`, `commentsAbove_of_comments`: what the walk looks at
  and what it takes.
* `commentsAbove_insertBlank`: a blank line more moves what the walk finds.
-/

namespace DocAudit

namespace SourceFile

variable {f : SourceFile} {n : Nat} {line : Text}

/-! ## One line -/

@[simp] theorem commentsAbove_zero (f : SourceFile) : f.commentsAbove 0 = [] := by
  rw [commentsAbove]

theorem commentsAbove_of_none (hl : f.line? n = none) : f.commentsAbove (n + 1) = [] := by
  rw [commentsAbove, hl]

theorem commentsAbove_of_comment {text : Text} (hl : f.line? n = some line)
    (hc : commentText? line = some text) :
    f.commentsAbove (n + 1) = (n, text) :: f.commentsAbove n := by
  rw [commentsAbove, hl]
  simp only [hc]

/-- The walk passes over a line that is blank or an attribute. -/
theorem commentsAbove_of_passed (hl : f.line? n = some line) (hc : commentText? line = none)
    (hp : (allBlank line || isAttribute line) = true) :
    f.commentsAbove (n + 1) = f.commentsAbove n := by
  rw [commentsAbove, hl]
  simp only [hc, hp, if_true]

theorem commentsAbove_of_attribute {first : Nat} (hl : f.line? n = some line)
    (hc : commentText? line = none) (hp : ¬ (allBlank line || isAttribute line) = true)
    (ha : f.attributeEndingAt? n = some first) :
    f.commentsAbove (n + 1) = f.commentsAbove first := by
  rw [commentsAbove, hl]
  simp only [hc, if_neg hp]
  split
  · next first' h =>
    rw [ha] at h
    cases h
    rfl
  · next h =>
    rw [ha] at h
    cases h

theorem commentsAbove_of_stop (hl : f.line? n = some line) (hc : commentText? line = none)
    (hp : ¬ (allBlank line || isAttribute line) = true) (ha : f.attributeEndingAt? n = none) :
    f.commentsAbove (n + 1) = [] := by
  rw [commentsAbove, hl]
  simp only [hc, if_neg hp]
  split
  · next first h =>
    rw [ha] at h
    cases h
  · rfl

/-! ## Several lines -/

/-- The walk looks at no line below the one it starts above. -/
theorem commentsAbove_congr {g : SourceFile} (h : ∀ i < n, g.line? i = f.line? i) :
    g.commentsAbove n = f.commentsAbove n := by
  have hmono {m k : Nat} (hm : m ≤ k) (h : ∀ i < k, g.line? i = f.line? i) :
      ∀ i < m, g.line? i = f.line? i := fun i hi => h i (Nat.lt_of_lt_of_le hi hm)
  fun_induction commentsAbove f n with
  | case1 => exact commentsAbove_zero g
  | case2 n hl => exact commentsAbove_of_none ((h n (Nat.lt_succ_self n)).trans hl)
  | case3 n line hl text hc ih =>
    have hl' := (h n (Nat.lt_succ_self n)).trans hl
    rw [commentsAbove_of_comment hl' hc, ih (hmono (Nat.le_succ n) h)]
  | case4 n line hl hc hp ih =>
    have hl' := (h n (Nat.lt_succ_self n)).trans hl
    rw [commentsAbove_of_passed hl' hc hp, ih (hmono (Nat.le_succ n) h)]
  | case5 n line hl hc hp first ha ih =>
    have hl' := (h n (Nat.lt_succ_self n)).trans hl
    have ha' := (attributeEndingAt?_congr fun i hi => h i (Nat.lt_succ_of_le hi)).trans ha
    have hfirst : first ≤ n + 1 := Nat.le_succ_of_le (Nat.le_of_lt (attributeEndingAt?_lt ha))
    rw [commentsAbove_of_attribute hl' hc hp ha', ih (hmono hfirst h)]
  | case6 n line hl hc hp ha =>
    have hl' := (h n (Nat.lt_succ_self n)).trans hl
    have ha' := (attributeEndingAt?_congr fun i hi => h i (Nat.lt_succ_of_le hi)).trans ha
    exact commentsAbove_of_stop hl' hc hp ha'

theorem of_mem_commentsAbove {c : Nat × Text} (h : c ∈ f.commentsAbove n) :
    c.1 < n ∧ (f.line? c.1).bind commentText? = some c.2 := by
  fun_induction commentsAbove f n with
  | case1 => cases h
  | case2 => cases h
  | case3 n line hl text hc ih =>
    rcases List.mem_cons.1 h with rfl | h
    · exact ⟨Nat.lt_succ_self n, by rw [hl, Option.bind_some, hc]⟩
    · exact ⟨Nat.lt_succ_of_lt (ih h).1, (ih h).2⟩
  | case4 n line hl hc hp ih => exact ⟨Nat.lt_succ_of_lt (ih h).1, (ih h).2⟩
  | case5 n line hl hc hp first ha ih =>
    have hfirst := attributeEndingAt?_lt ha
    have hlt := (ih h).1
    exact ⟨by omega, (ih h).2⟩
  | case6 => cases h

theorem commentsAbove_of_comments {ls texts : List Text}
    (hl : ∀ i < ls.length, f.line? (n + i) = ls[i]?) (ht : ls.map commentText? = texts.map some) :
    (f.commentsAbove (n + ls.length)).map (·.2) =
      texts.reverse ++ (f.commentsAbove n).map (·.2) := by
  induction hlen : ls.length generalizing ls texts with
  | zero =>
    rw [List.length_eq_zero_iff.1 hlen] at ht
    rw [List.map_eq_nil_iff.1 ht.symm]
    rfl
  | succ m ih =>
    -- The walk meets the last comment first.
    have hne : ls ≠ [] := List.ne_nil_of_length_eq_add_one hlen
    obtain ⟨before, last, rfl⟩ : ∃ before last, ls = before ++ [last] :=
      ⟨ls.dropLast, ls.getLast hne, (List.dropLast_concat_getLast hne).symm⟩
    rw [List.map_append, List.map_singleton] at ht
    obtain ⟨texts, last', rfl, htexts, hlast⟩ := List.append_eq_map_iff.1 ht
    obtain ⟨text, rfl, htext⟩ := List.map_eq_singleton_iff.1 hlast
    rw [List.length_append, List.length_singleton, Nat.add_right_cancel_iff] at hlen
    have hline : f.line? (n + m) = some last := by
      rw [hl m (by rw [List.length_append, hlen]; exact Nat.lt_succ_self m), ← hlen,
        List.getElem?_concat_length]
    rw [← Nat.add_assoc, commentsAbove_of_comment hline htext.symm, List.map_cons,
      ih (fun i hi => ?_) htexts.symm hlen, List.reverse_append, List.reverse_singleton,
      List.append_assoc]
    · rfl
    · rw [hl i (by rw [List.length_append]; omega), List.getElem?_append_left hi]

/-! ## A blank line more -/

section Blank

variable {k : Nat}

theorem commentsAbove_insertBlank_self (hk : k ≤ f.lineCount) :
    (f.insertBlank k).commentsAbove (k + 1) = (f.insertBlank k).commentsAbove k :=
  commentsAbove_of_passed (line?_insertBlank_self hk) rfl rfl

/-- From below a line that has moved, the walk comes to where the line is now. -/
theorem commentsAbove_moveLine_succ (hk : k ≤ f.lineCount) (n : Nat) :
    (f.insertBlank k).commentsAbove (moveLine k (n + 1)) =
      (f.insertBlank k).commentsAbove (moveLine k n + 1) := by
  rcases Nat.lt_trichotomy (n + 1) k with h | h | h
  · rw [moveLine_of_lt h, moveLine_of_lt (Nat.lt_of_succ_lt h)]
  · rw [moveLine_of_le (Nat.le_of_eq h.symm), moveLine_of_lt (by omega), h,
      commentsAbove_insertBlank_self hk]
  · rw [moveLine_of_le (Nat.le_of_lt h), moveLine_of_le (by omega)]

/-- **What the walk finds moves with its lines.** -/
theorem commentsAbove_insertBlank (hk : k ≤ f.lineCount) (hfit : f.AttributesFit) (n : Nat) :
    (f.insertBlank k).commentsAbove (moveLine k n) =
      (f.commentsAbove n).map fun (m, text) => (moveLine k m, text) := by
  fun_induction commentsAbove f n with
  | case1 =>
    rcases Nat.eq_zero_or_pos k with rfl | h
    · rw [moveLine_of_le (Nat.le_refl 0), commentsAbove_insertBlank_self hk, commentsAbove_zero]
      rfl
    · rw [moveLine_of_lt h, commentsAbove_zero]
      rfl
  | case2 n hl =>
    rw [commentsAbove_moveLine_succ hk]
    exact commentsAbove_of_none ((line?_insertBlank f k n).trans hl)
  | case3 n line hl text hc ih =>
    rw [commentsAbove_moveLine_succ hk,
      commentsAbove_of_comment ((line?_insertBlank f k n).trans hl) hc, ih]
    rfl
  | case4 n line hl hc hp ih =>
    rw [commentsAbove_moveLine_succ hk,
      commentsAbove_of_passed ((line?_insertBlank f k n).trans hl) hc hp, ih]
  | case5 n line hl hc hp first ha ih =>
    have hending := attributeEndingAt?_insertBlank hk hfit n
    rw [ha] at hending
    rw [commentsAbove_moveLine_succ hk,
      commentsAbove_of_attribute ((line?_insertBlank f k n).trans hl) hc hp hending, ih]
  | case6 n line hl hc hp ha =>
    have hending := attributeEndingAt?_insertBlank hk hfit n
    rw [ha] at hending
    rw [commentsAbove_moveLine_succ hk]
    exact commentsAbove_of_stop ((line?_insertBlank f k n).trans hl) hc hp hending

theorem documentationAbove_insertBlank (hk : k ≤ f.lineCount) (hfit : f.AttributesFit)
    (n : Nat) :
    (f.insertBlank k).documentationAbove (moveLine k n) = f.documentationAbove n := by
  unfold documentationAbove
  rw [commentsAbove_insertBlank hk hfit]
  cases f.commentsAbove n with
  | nil => rfl
  | cons comment rest =>
    rw [List.map_cons]
    simp only
    rw [← List.map_cons (f := fun (p : Nat × Text) => (moveLine k p.1, p.2)), ← List.map_reverse,
      List.map_map]
    rfl

end Blank

end SourceFile

end DocAudit
