import DocAudit.Source.Attribute

/-!
# Attributes over several lines

How far the reader of attributes looks, and what it looks at.

* `gatherAttribute_le`, `readAttribute?_le`: an attribute lies within its file and its limit.
* `readAttribute?_congr`: only the lines of an attribute matter.
* `SourceFile.attributeAt?_code`: no line after its first one is a comment or the edge of a body.
* `SourceFile.attributeEndingAt?_eq_some_iff`: what the search from the last line of an attribute
  finds.
* `SourceFile.attributeEndingAt?_eq_none`: where no attribute can end.
-/

namespace DocAudit

/-! ## One line more -/

theorem gatherAttribute_of_depth_eq_zero {b : Brackets} (hb : b.depth = 0) (t : Text) (n : Nat)
    (rest : List Text) :
    gatherAttribute b t n rest = if isAttribute t then some (t, 0) else none := by
  unfold gatherAttribute
  rw [if_pos hb]

theorem gatherAttribute_zero {b : Brackets} (hb : ¬ b.depth = 0) (t : Text) (rest : List Text) :
    gatherAttribute b t 0 rest = none := by
  unfold gatherAttribute
  rw [if_neg hb]

theorem gatherAttribute_of_stop {b : Brackets} (hb : ¬ b.depth = 0) (t : Text) (n : Nat)
    {line : Text} (hl : (isBlockBoundary line || isStructuredComment line) = true)
    {others : List Text} : gatherAttribute b t (n + 1) (line :: others) = none := by
  rw [gatherAttribute, if_neg hb]
  simp only
  rw [if_pos hl]

theorem gatherAttribute_cons {b : Brackets} (hb : ¬ b.depth = 0) (t : Text) (n : Nat)
    {line : Text} (hl : ¬ (isBlockBoundary line || isStructuredComment line) = true)
    (others : List Text) :
    gatherAttribute b t (n + 1) (line :: others) =
      (gatherAttribute (b.after (codeOf line)) (joinPiece t (codeOf line)) n others).map
        fun (whole, extra) => (whole, extra + 1) := by
  rw [gatherAttribute, if_neg hb]
  simp only
  rw [if_neg hl]

/-! ## Extent -/

theorem gatherAttribute_le {b : Brackets} {t whole : Text} {allowance extra : Nat}
    {rest : List Text} (h : gatherAttribute b t allowance rest = some (whole, extra)) :
    extra ≤ allowance ∧ extra ≤ rest.length := by
  fun_induction gatherAttribute b t allowance rest generalizing whole extra with
  | case1 => simp only [Option.some.injEq, Prod.mk.injEq] at h; omega
  | case2 => cases h
  | case3 => cases h
  | case4 b t hb n line others hl ih =>
    obtain ⟨⟨w, e⟩, he, heq⟩ := Option.map_eq_some_iff.1 h
    cases heq
    have := ih he
    rw [List.length_cons]
    omega
  | case5 => cases h

theorem readAttribute?_eq_some_iff {line whole : Text} {rest : List Text} {extra : Nat} :
    readAttribute? (line :: rest) = some (whole, extra) ↔
      opensAttribute line = true ∧
        gatherAttribute (({} : Brackets).after (codeOf line)) (codeOf line) maxAttributeLines rest =
          some (whole, extra) := by
  rw [readAttribute?]
  by_cases h : opensAttribute line = true
  · rw [if_pos h, and_iff_right h]
  · rw [if_neg h]
    exact iff_of_false (fun hc => by cases hc) (fun hc => h hc.1)

theorem readAttribute?_le {line whole : Text} {rest : List Text} {extra : Nat}
    (h : readAttribute? (line :: rest) = some (whole, extra)) :
    extra ≤ maxAttributeLines ∧ extra ≤ rest.length :=
  gatherAttribute_le (readAttribute?_eq_some_iff.1 h).2

/-! ## Locality -/

/-- Neither the lines after an attribute nor a larger allowance change it. -/
theorem gatherAttribute_congr {b : Brackets} {t whole : Text} {n m extra : Nat}
    {rest rest' : List Text} (h : gatherAttribute b t n rest = some (whole, extra))
    (hm : extra ≤ m) (heq : rest'.take extra = rest.take extra) :
    gatherAttribute b t m rest' = some (whole, extra) := by
  fun_induction gatherAttribute b t n rest generalizing whole extra m rest' with
  | case1 b t n rest hb ht =>
    cases h
    rw [gatherAttribute_of_depth_eq_zero hb, if_pos ht]
  | case2 => cases h
  | case3 => cases h
  | case4 b t hb n line others hl ih =>
    obtain ⟨⟨w, e⟩, he, hwe⟩ := Option.map_eq_some_iff.1 h
    cases hwe
    obtain ⟨m, rfl⟩ := Nat.exists_eq_succ_of_ne_zero (by omega : m ≠ 0)
    rw [List.take_succ_cons] at heq
    cases rest' with
    | nil => cases heq
    | cons line' others' =>
      rw [List.take_succ_cons, List.cons.injEq] at heq
      obtain ⟨rfl, heq⟩ := heq
      rw [gatherAttribute_cons hb t m hl, ih he (by omega) heq]
      rfl
  | case5 => cases h

theorem readAttribute?_congr {whole : Text} {lines lines' : List Text} {extra : Nat}
    (h : readAttribute? lines = some (whole, extra))
    (heq : lines'.take (extra + 1) = lines.take (extra + 1)) :
    readAttribute? lines' = some (whole, extra) := by
  cases lines with
  | nil => cases h
  | cons line rest =>
    cases lines' with
    | nil => cases heq
    | cons line' rest' =>
      rw [List.take_succ_cons, List.take_succ_cons, List.cons.injEq] at heq
      obtain ⟨rfl, heq⟩ := heq
      rw [readAttribute?_eq_some_iff] at h ⊢
      exact ⟨h.1, gatherAttribute_congr h.2 (gatherAttribute_le h.2).1 heq⟩

theorem gatherAttribute_code {b : Brackets} {t whole : Text} {n extra : Nat} {rest : List Text}
    (h : gatherAttribute b t n rest = some (whole, extra)) {i : Nat} (hi : i < extra) {line : Text}
    (hl : rest[i]? = some line) :
    isBlockBoundary line = false ∧ isStructuredComment line = false := by
  fun_induction gatherAttribute b t n rest generalizing whole extra i with
  | case1 => cases h; omega
  | case2 => cases h
  | case3 => cases h
  | case4 b t hb n first others hf ih =>
    obtain ⟨⟨w, e⟩, he, hwe⟩ := Option.map_eq_some_iff.1 h
    cases hwe
    cases i with
    | zero =>
      cases hl
      rw [Bool.not_eq_true, Bool.or_eq_false_iff] at hf
      exact hf
    | succ i =>
      rw [List.getElem?_cons_succ] at hl
      exact ih he (by omega) hl
  | case5 => cases h

/-! ## The last line -/

/-- Without a closing bracket no bracket closes. -/
theorem Brackets.depth_le_after {t : Text} (h : ']' ∉ t) (b : Brackets) :
    b.depth ≤ (b.after t).depth := by
  induction t generalizing b with
  | nil => exact Nat.le_refl _
  | cons c t ih =>
    rw [List.mem_cons, not_or] at h
    refine Nat.le_trans ?_ (ih h.2 (b.step c))
    rw [step]
    simp only
    split
    · exact Nat.le_succ _
    · exact Nat.le_of_eq (if_neg fun hc => h.1 hc.2.symm).symm

theorem depth_eq_zero_of_gatherAttribute {b : Brackets} {t whole : Text} {n : Nat}
    {rest : List Text} (h : gatherAttribute b t n rest = some (whole, 0)) : b.depth = 0 := by
  fun_induction gatherAttribute b t n rest generalizing whole with
  | case1 b t n rest hb => exact hb
  | case2 b t n rest hb => exact hb
  | case3 => cases h
  | case4 =>
    obtain ⟨found, -, heq⟩ := Option.map_eq_some_iff.1 h
    cases heq
  | case5 => cases h

/-- **An attribute ends on a line with a closing bracket** if it has several lines. -/
theorem gatherAttribute_closes {b : Brackets} {t whole : Text} {n extra : Nat} {rest : List Text}
    (h : gatherAttribute b t n rest = some (whole, extra + 1)) {line : Text}
    (hl : rest[extra]? = some line) : ']' ∈ codeOf line := by
  fun_induction gatherAttribute b t n rest generalizing whole extra with
  | case1 => cases h
  | case2 => cases h
  | case3 => cases h
  | case4 b t hb n first others hf ih =>
    obtain ⟨⟨w, e⟩, he, heq⟩ := Option.map_eq_some_iff.1 h
    cases heq
    cases extra with
    | zero =>
      cases hl
      refine Decidable.byContradiction fun hbracket => ?_
      have hopen := Brackets.depth_le_after hbracket b
      rw [depth_eq_zero_of_gatherAttribute he] at hopen
      exact hb (Nat.le_zero.1 hopen)
    | succ extra =>
      rw [List.getElem?_cons_succ] at hl
      exact ih he hl
  | case5 => cases h

/-! ## Attributes of a file -/

namespace SourceFile

variable {f : SourceFile} {first last : Nat} {whole : Text}

theorem attributeAt?_eq_some_iff :
    f.attributeAt? first = some (whole, last) ↔
      ∃ extra, readAttribute? (f.linesFrom first) = some (whole, extra) ∧ last = first + extra := by
  rw [attributeAt?, Option.map_eq_some_iff]
  constructor
  · rintro ⟨⟨w, e⟩, he, heq⟩
    cases heq
    exact ⟨e, he, rfl⟩
  · rintro ⟨e, he, rfl⟩
    exact ⟨_, he, rfl⟩

theorem attributeAt?_le (h : f.attributeAt? first = some (whole, last)) :
    first ≤ last ∧ last ≤ first + maxAttributeLines ∧ last < f.lineCount ∧
      (f.line? first).any opensAttribute = true := by
  obtain ⟨extra, he, rfl⟩ := attributeAt?_eq_some_iff.1 h
  cases hl : f.linesFrom first with
  | nil =>
    rw [hl] at he
    cases he
  | cons line rest =>
    have hlen : f.lineCount - first = rest.length + 1 := by
      rw [lineCount, ← List.length_drop, ← List.length_cons, ← hl]
      rfl
    rw [hl] at he
    have hle := readAttribute?_le he
    have hline : f.line? first = some line := by rw [← head?_linesFrom, hl]; rfl
    refine ⟨by omega, by omega, by omega, ?_⟩
    rw [hline]
    exact (readAttribute?_eq_some_iff.1 he).1

theorem attributeAt?_code (h : f.attributeAt? first = some (whole, last)) {n : Nat}
    (hn : first < n) (hn' : n ≤ last) {line : Text} (hl : f.line? n = some line) :
    isBlockBoundary line = false ∧ isStructuredComment line = false := by
  obtain ⟨extra, he, rfl⟩ := attributeAt?_eq_some_iff.1 h
  cases hf : f.linesFrom first with
  | nil =>
    rw [hf] at he
    cases he
  | cons opener rest =>
    rw [hf] at he
    refine gatherAttribute_code (readAttribute?_eq_some_iff.1 he).2
      (by omega : n - first - 1 < extra) ?_
    have hget : (f.linesFrom first)[n - first]? = some line := by
      rw [linesFrom, List.getElem?_drop, Nat.add_sub_cancel' (Nat.le_of_lt hn)]
      exact hl
    rw [hf, show n - first = n - first - 1 + 1 by omega, List.getElem?_cons_succ] at hget
    exact hget

theorem attributeAt?_congr {g : SourceFile} {first' : Nat}
    (h : f.attributeAt? first = some (whole, last))
    (heq : ∀ i ≤ last - first, g.line? (first' + i) = f.line? (first + i)) :
    g.attributeAt? first' = some (whole, first' + (last - first)) := by
  obtain ⟨extra, he, rfl⟩ := attributeAt?_eq_some_iff.1 h
  rw [Nat.add_sub_cancel_left] at heq ⊢
  refine attributeAt?_eq_some_iff.2 ⟨extra, readAttribute?_congr he ?_, rfl⟩
  apply List.ext_getElem?
  intro i
  simp only [List.getElem?_take]
  split
  · next hi =>
    simp only [linesFrom, List.getElem?_drop]
    exact heq i (by omega)
  · rfl

/-! ## The search from the last line -/

/-- The search upwards finds the nearest line that opens with a bracket. -/
theorem openerAbove?_eq_some_iff {allowance n : Nat} :
    f.openerAbove? allowance n = some first ↔
      first < n ∧ n ≤ first + allowance ∧ (f.line? first).any opensAttribute = true ∧
        ∀ m, first < m → m < n → ∃ line, f.line? m = some line ∧ opensAttribute line = false := by
  induction allowance generalizing n with
  | zero =>
    have hnone : f.openerAbove? 0 n = none := by cases n <;> rfl
    rw [hnone]
    exact iff_of_false (fun h => by cases h) (fun h => by omega)
  | succ a ih =>
    cases n with
    | zero =>
      have hnone : f.openerAbove? (a + 1) 0 = none := rfl
      rw [hnone]
      exact iff_of_false (fun h => by cases h) (fun h => by omega)
    | succ n =>
      rw [openerAbove?]
      cases hl : f.line? n with
      | none =>
        refine iff_of_false (fun h => by cases h) ?_
        rintro ⟨hlt, -, hopen, hbetween⟩
        rcases Nat.eq_or_lt_of_le (Nat.le_of_lt_succ hlt) with rfl | hlt'
        · rw [hl] at hopen
          cases hopen
        · obtain ⟨line, hline, -⟩ := hbetween n hlt' (Nat.lt_succ_self n)
          rw [hl] at hline
          cases hline
      | some line =>
        simp only
        by_cases ho : opensAttribute line = true
        · rw [if_pos ho]
          constructor
          · intro h
            cases h
            exact ⟨Nat.lt_succ_self _, by omega, by rw [hl]; exact ho, fun m h1 h2 => by omega⟩
          · rintro ⟨hlt, -, -, hbetween⟩
            rcases Nat.eq_or_lt_of_le (Nat.le_of_lt_succ hlt) with rfl | hlt'
            · rfl
            · obtain ⟨line', hline, hno⟩ := hbetween n hlt' (Nat.lt_succ_self n)
              rw [hl] at hline
              cases hline
              rw [ho] at hno
              cases hno
        · rw [if_neg ho, ih]
          rw [Bool.not_eq_true] at ho
          constructor
          · rintro ⟨hlt, hle, hopen, hbetween⟩
            refine ⟨by omega, by omega, hopen, ?_⟩
            intro m h1 h2
            rcases Nat.eq_or_lt_of_le (Nat.le_of_lt_succ h2) with rfl | h2'
            · exact ⟨line, hl, ho⟩
            · exact hbetween m h1 h2'
          · rintro ⟨hlt, hle, hopen, hbetween⟩
            rcases Nat.eq_or_lt_of_le (Nat.le_of_lt_succ hlt) with rfl | hlt'
            · rw [hl] at hopen
              exact absurd hopen (by simpa using ho)
            · exact ⟨hlt', by omega, hopen, fun m h1 h2 => hbetween m h1 (by omega)⟩

/-- An attribute is found from its last line unless a line between opens with a bracket too. -/
theorem attributeEndingAt?_eq_some_iff :
    f.attributeEndingAt? last = some first ↔
      first < last ∧ (∃ whole, f.attributeAt? first = some (whole, last)) ∧
        ∀ m, first < m → m < last →
          ∃ line, f.line? m = some line ∧ opensAttribute line = false := by
  simp only [attributeEndingAt?, Option.bind_eq_bind, Option.bind_eq_some_iff]
  constructor
  · rintro ⟨n, hn, ⟨whole, found⟩, ha, hf⟩
    by_cases heq : found = last
    · rw [if_pos heq] at hf
      cases hf
      rw [heq] at ha
      have h := openerAbove?_eq_some_iff.1 hn
      exact ⟨h.1, ⟨whole, ha⟩, h.2.2.2⟩
    · rw [if_neg heq] at hf
      cases hf
  · rintro ⟨hlt, ⟨whole, ha⟩, hbetween⟩
    have hle := attributeAt?_le ha
    exact ⟨first, openerAbove?_eq_some_iff.2 ⟨hlt, hle.2.1, hle.2.2.2, hbetween⟩,
      (whole, last), ha, if_pos rfl⟩

/-- No attribute of several lines ends on a line without a closing bracket. -/
theorem attributeEndingAt?_eq_none {line : Text} (hl : f.line? last = some line)
    (h : ']' ∉ codeOf line) : f.attributeEndingAt? last = none := by
  apply Option.eq_none_iff_forall_ne_some.2
  intro first ha
  obtain ⟨hlt, ⟨whole, hfound⟩, -⟩ := attributeEndingAt?_eq_some_iff.1 ha
  obtain ⟨extra, he, rfl⟩ := attributeAt?_eq_some_iff.1 hfound
  obtain ⟨n, rfl⟩ := Nat.exists_eq_succ_of_ne_zero (by omega : extra ≠ 0)
  have hget : (f.linesFrom first)[n + 1]? = some line := by
    rw [linesFrom, List.getElem?_drop]
    exact hl
  cases hf : f.linesFrom first with
  | nil =>
    rw [hf] at he
    cases he
  | cons opener rest =>
    rw [hf] at he hget
    exact h (gatherAttribute_closes (readAttribute?_eq_some_iff.1 he).2 hget)

/-- The search looks at no line below the one it starts from. -/
theorem attributeEndingAt?_congr {g : SourceFile} (h : ∀ i ≤ last, g.line? i = f.line? i) :
    g.attributeEndingAt? last = f.attributeEndingAt? last := by
  -- What one of two files that agree finds, the other finds too.
  have himp : ∀ {f g : SourceFile}, (∀ i ≤ last, g.line? i = f.line? i) →
      ∀ first, f.attributeEndingAt? last = some first → g.attributeEndingAt? last = some first := by
    intro f g h first hf
    obtain ⟨hlt, ⟨whole, ha⟩, hbetween⟩ := attributeEndingAt?_eq_some_iff.1 hf
    refine attributeEndingAt?_eq_some_iff.2 ⟨hlt, ⟨whole, ?_⟩, fun m h1 h2 => ?_⟩
    · have hg := @attributeAt?_congr f _ _ _ g first ha fun i hi => h (first + i) (by omega)
      rw [Nat.add_sub_cancel' (Nat.le_of_lt hlt)] at hg
      exact hg
    · rw [h m (by omega)]
      exact hbetween m h1 h2
  apply Option.ext
  intro first
  exact ⟨himp (fun i hi => (h i hi).symm) first, himp h first⟩

end SourceFile

end DocAudit
