import DocAudit.Source.Attribute

/-!
# Documentation above a declaration

The structured comments directly above a declaration document it. Blank lines and attributes may
stand between them and the declaration, and between each other; anything else ends the block.

* `SourceFile.commentsAbove`: the lines of the block with their numbers, the nearest first.
* `SourceFile.documentationAbove`: the text of the block.
-/

namespace DocAudit

/-- The documentation of a declaration: the text of its block, or none. -/
abbrev Documentation := Option Text

/-- The text of the documentation, empty without one. -/
def Documentation.raw (d : Documentation) : Text := d.getD []

/-- The text of a structured comment: what follows its marker, without one space. -/
def commentText? (line : Text) : Option Text :=
  (commentMarker.isPrefixOf? (trim line)).map fun
    | ' ' :: rest => rest
    | rest => rest

namespace SourceFile

theorem openerAbove?_lt {f : SourceFile} {allowance n first : Nat}
    (h : f.openerAbove? allowance n = some first) : first < n := by
  induction allowance generalizing n with
  | zero => simp [openerAbove?] at h
  | succ a ih =>
    cases n with
    | zero => simp [openerAbove?] at h
    | succ m =>
      simp only [openerAbove?] at h
      split at h
      · simp at h
      · split at h
        · simp only [Option.some.injEq] at h; omega
        · exact Nat.lt_succ_of_lt (ih h)

theorem attributeEndingAt?_lt {f : SourceFile} {last first : Nat}
    (h : f.attributeEndingAt? last = some first) : first < last := by
  simp only [attributeEndingAt?, Option.bind_eq_bind, Option.bind_eq_some_iff] at h
  obtain ⟨n, hn, ⟨whole, found⟩, -, hf⟩ := h
  split at hf
  · simp only [Option.some.injEq] at hf
    exact hf ▸ openerAbove?_lt hn
  · simp at hf

/-- The structured comments above line `n`, with their numbers, from the nearest upwards. -/
def commentsAbove (f : SourceFile) (n : Nat) : List (Nat × Text) :=
  match n with
  | 0 => []
  | above + 1 =>
    match f.line? above with
    | none => []
    | some line =>
      match commentText? line with
      | some text => (above, text) :: f.commentsAbove above
      | none =>
        if allBlank line || isAttribute line then f.commentsAbove above
        else
          match _h : f.attributeEndingAt? above with
          | some first => f.commentsAbove first
          | none => []
termination_by n
decreasing_by
  · omega
  · omega
  · have := attributeEndingAt?_lt _h
    omega

/-- The documentation of a declaration on line `n`. -/
def documentationAbove (f : SourceFile) (n : Nat) : Documentation :=
  match f.commentsAbove n with
  | [] => none
  | comments => some (joinLines (comments.reverse.map (·.2)))

end SourceFile

end DocAudit
