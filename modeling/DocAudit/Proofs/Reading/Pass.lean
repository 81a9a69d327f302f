import DocAudit.Model.Reading

/-!
# The pass over a file, step by step

`SourceFile.readFrom` runs through a file to its object. Here the run is taken apart, so that
facts about the model are proved for one line and then carried along the pass.

* `Effect`: what one line does, with everything that decides it. `effect_step` says that there is
  nothing else a line can do.
* `Reaches`: the pass comes to a line with a reading; `Ends`: the pass stops with a reading.
* `exists_ends_of_object?`: an object is the result of a reading with which the pass ends.
-/

namespace DocAudit

namespace SourceFile

variable {f : SourceFile} {s : Settings}

/-! ## One line -/

/-- What a plain line does to a reading, by whether the object is open. -/
inductive PlainEffect (f : SourceFile) (n : Nat) (line : Text) (r : Reading) : Step → Prop
  /-- The line stands inside the object. -/
  | body {o : SourceObject} (ho : r.object = some o)
      (h : (readBody o line r).braces.closed = false) :
      PlainEffect f n line r (.next (readBody o line r) 0)
  /-- The line closes the object. -/
  | close {o : SourceObject} (ho : r.object = some o)
      (h : (readBody o line r).braces.closed = true) :
      PlainEffect f n line r (.done (readBody o line r))
  /-- The line is the header of the object. -/
  | header {h : ObjectHeader} (ho : r.object = none)
      (hb : (!r.declared && isBlockBoundary line) = false) (hh : ObjectHeader.read? line = some h) :
      PlainEffect f n line r (.next
        { r with
          attributes := []
          declared := true
          object := some (f.emptyObject n h)
          braces := r.braces.countLine line } 0)
  /-- The line stands outside any declaration. -/
  | outside (ho : r.object = none) (hb : (!r.declared && isBlockBoundary line) = false)
      (hh : ObjectHeader.read? line = none) :
      PlainEffect f n line r (.next { r with attributes := [] } 0)
  /-- The line is the edge of a body before any declaration. -/
  | fragment (ho : r.object = none) (hb : (!r.declared && isBlockBoundary line) = true) :
      PlainEffect f n line r .fragment

theorem effect_readPlain (n : Nat) (line : Text) (r : Reading) :
    PlainEffect f n line r (f.readPlain n line r) := by
  unfold readPlain
  split
  · next o ho =>
    by_cases h : (readBody o line r).braces.closed = true
    · simp only [h, if_true]
      exact .close ho h
    · rw [Bool.not_eq_true] at h
      simp only [h, Bool.false_eq_true, if_false]
      exact .body ho h
  · next ho =>
    by_cases hb : (!r.declared && isBlockBoundary line) = true
    · rw [if_pos hb]
      exact .fragment ho hb
    · rw [if_neg hb]
      rw [Bool.not_eq_true] at hb
      cases hh : ObjectHeader.read? line with
      | some header => exact .header ho hb hh
      | none => exact .outside ho hb hh

/-- A line that the pass looks at: it stands outside block comments and is neither blank nor a
comment. -/
def IsCode (r : Reading) (line : Text) : Prop :=
  (r.inComment || ("/*" : Text).isPrefixOf (trim line)) = false ∧
    (allBlank line || isInlineComment line || isStructuredComment line) = false

theorem headerAt?_eq_some_iff {line whole : Text} {rest : List Text} {header : ProcedureHeader}
    {extra : Nat} :
    headerAt? line rest = some (header, whole, extra) ↔
      startsProcedure line = true ∧ readSignature (line :: rest) = (whole, extra) ∧
        ProcedureHeader.read? whole = some header := by
  rw [headerAt?]
  by_cases hp : startsProcedure line = true
  · rw [if_pos hp, and_iff_right hp]
    simp only [Option.map_eq_some_iff, Prod.mk.injEq]
    constructor
    · rintro ⟨h, hh, rfl, rfl, rfl⟩
      exact ⟨rfl, hh⟩
    · rintro ⟨hw, hh⟩
      rw [hw]
      exact ⟨header, hh, rfl, rfl, rfl⟩
  · rw [if_neg hp]
    exact iff_of_false (fun h => by cases h) (fun h => hp h.1)

/-- What line `n` does to a reading, with the lines after it at hand. -/
inductive Effect (f : SourceFile) (s : Settings) (n : Nat) (line : Text) (rest : List Text)
    (r : Reading) : Step → Prop
  /-- The line belongs to a block comment. -/
  | comment (h : (r.inComment || ("/*" : Text).isPrefixOf (trim line)) = true) :
      Effect f s n line rest r (.next { r with inComment := !Text.has "*/" (trim line) } 0)
  /-- The line is blank or a comment of its own. -/
  | skip (hc : (r.inComment || ("/*" : Text).isPrefixOf (trim line)) = false)
      (h : (allBlank line || isInlineComment line || isStructuredComment line) = true) :
      Effect f s n line rest r (.next r 0)
  /-- An attribute opens. -/
  | attributeRead {whole : Text} {extra : Nat} (hc : IsCode r line)
      (h : readAttribute? (line :: rest) = some (whole, extra)) :
      Effect f s n line rest r (.next { r with attributes := r.attributes ++ [whole] } extra)
  /-- A signature opens. -/
  | signatureRead {header : ProcedureHeader} {whole : Text} {extra : Nat} (hc : IsCode r line)
      (ha : readAttribute? (line :: rest) = none)
      (h : headerAt? line rest = some (header, whole, extra)) :
      Effect f s n line rest r (.next (f.readProcedure s n (n + extra) whole header r) extra)
  /-- The line is any other. -/
  | plain {effect : Step} (hc : IsCode r line) (ha : readAttribute? (line :: rest) = none)
      (h : headerAt? line rest = none) (hp : PlainEffect f n line r effect) :
      Effect f s n line rest r effect

/-- A line does what `Effect` lists, and nothing else. -/
theorem effect_step (n : Nat) (line : Text) (rest : List Text) (r : Reading) :
    Effect f s n line rest r (f.step s n line rest r) := by
  unfold step
  by_cases hc : (r.inComment || ("/*" : Text).isPrefixOf (trim line)) = true
  · rw [if_pos hc]
    exact .comment hc
  · rw [if_neg hc]
    rw [Bool.not_eq_true] at hc
    by_cases hs : (allBlank line || isInlineComment line || isStructuredComment line) = true
    · rw [if_pos hs]
      exact .skip hc hs
    · rw [if_neg hs]
      rw [Bool.not_eq_true] at hs
      cases ha : readAttribute? (line :: rest) with
      | some found => exact .attributeRead ⟨hc, hs⟩ ha
      | none =>
        cases hh : headerAt? line rest with
        | some found => exact .signatureRead ⟨hc, hs⟩ ha hh
        | none => exact .plain ⟨hc, hs⟩ ha hh (effect_readPlain n line r)

section

variable {n extra : Nat} {line whole : Text} {rest : List Text} {r : Reading}

theorem step_of_readAttribute? (hc : IsCode r line)
    (h : readAttribute? (line :: rest) = some (whole, extra)) :
    f.step s n line rest r = .next { r with attributes := r.attributes ++ [whole] } extra := by
  unfold step
  rw [if_neg (by rw [hc.1]; exact Bool.false_ne_true),
    if_neg (by rw [hc.2]; exact Bool.false_ne_true), h]

theorem step_of_headerAt? {header : ProcedureHeader} (hc : IsCode r line)
    (ha : readAttribute? (line :: rest) = none)
    (h : headerAt? line rest = some (header, whole, extra)) :
    f.step s n line rest r =
      .next (f.readProcedure s n (n + extra) whole header r) extra := by
  unfold step
  rw [if_neg (by rw [hc.1]; exact Bool.false_ne_true),
    if_neg (by rw [hc.2]; exact Bool.false_ne_true), ha, h]

end

/-! ## The whole pass -/

/-- The pass comes to line `n` with a reading. -/
inductive Reaches (f : SourceFile) (s : Settings) : Nat → Reading → Prop
  | start : Reaches f s 0 {}
  | next {n extra : Nat} {line : Text} {r r' : Reading} (hr : Reaches f s n r)
      (hl : f.line? n = some line) (h : f.step s n line (f.linesFrom (n + 1)) r = .next r' extra) :
      Reaches f s (n + 1 + extra) r'

/-- The pass stops with a reading: no line is left, or the object is closed. -/
inductive Ends (f : SourceFile) (s : Settings) : Reading → Prop
  | exhausted {n : Nat} {r : Reading} (hr : Reaches f s n r) (hl : f.line? n = none) : Ends f s r
  | closed {n : Nat} {line : Text} {r r' : Reading} (hr : Reaches f s n r)
      (hl : f.line? n = some line) (h : f.step s n line (f.linesFrom (n + 1)) r = .done r') :
      Ends f s r'

theorem length_linesFrom (f : SourceFile) (n : Nat) : (f.linesFrom n).length = f.lineCount - n := by
  simp [linesFrom, lineCount]

theorem linesFrom_eq_nil_iff {n : Nat} : f.linesFrom n = [] ↔ f.line? n = none := by
  simp [linesFrom, line?]

theorem drop_linesFrom (n extra : Nat) :
    (f.linesFrom n).drop extra = f.linesFrom (n + extra) := by
  simp [linesFrom, List.drop_drop]

theorem readFrom_of_none {n : Nat} (hl : f.line? n = none) (r : Reading) :
    f.readFrom s n (f.linesFrom n) r = r.result := by
  rw [linesFrom_eq_nil_iff.2 hl, readFrom]

theorem readFrom_of_some {n : Nat} {line : Text} (hl : f.line? n = some line) (r : Reading) :
    f.readFrom s n (f.linesFrom n) r =
      match f.step s n line (f.linesFrom (n + 1)) r with
      | .next r' extra => f.readFrom s (n + 1 + extra) (f.linesFrom (n + 1 + extra)) r'
      | .done r' => r'.result
      | .fragment => none := by
  rw [linesFrom_eq_cons hl, readFrom]
  cases f.step s n line (f.linesFrom (n + 1)) r <;> simp only [drop_linesFrom]

theorem line?_lt {n : Nat} {line : Text} (h : f.line? n = some line) : n < f.lineCount :=
  line?_isSome_iff.1 (by rw [h]; rfl)

/-- Wherever the pass stands, the object of the file is what it still comes to. -/
theorem Reaches.object?_eq {n : Nat} {r : Reading} (h : Reaches f s n r) :
    f.object? s = f.readFrom s n (f.linesFrom n) r := by
  induction h with
  | start => rfl
  | next _ hl hs ih => rw [ih, readFrom_of_some hl, hs]

/-- Wherever the pass stands, its result is that of a reading with which it ends. -/
theorem exists_ends {n : Nat} {r : Reading} {o : SourceObject} (hr : Reaches f s n r)
    (h : f.readFrom s n (f.linesFrom n) r = some o) : ∃ r', Ends f s r' ∧ r'.result = some o := by
  -- Every step leaves fewer lines.
  induction hm : f.lineCount - n using Nat.strongRecOn generalizing n r with
  | ind m ih =>
    cases hl : f.line? n with
    | none =>
      rw [readFrom_of_none hl] at h
      exact ⟨r, .exhausted hr hl, h⟩
    | some line =>
      have hn := line?_lt hl
      rw [readFrom_of_some hl] at h
      cases hs : f.step s n line (f.linesFrom (n + 1)) r with
      | next r' extra =>
        rw [hs] at h
        exact ih _ (by omega) (.next hr hl hs) h rfl
      | done r' =>
        rw [hs] at h
        exact ⟨r', .closed hr hl hs, h⟩
      | fragment =>
        rw [hs] at h
        exact absurd h (by simp)

/-- **The object of a file is what the pass ends with.** -/
theorem exists_ends_of_object? {o : SourceObject} (h : f.object? s = some o) :
    ∃ r, Ends f s r ∧ r.result = some o := exists_ends .start h

end SourceFile

end DocAudit
