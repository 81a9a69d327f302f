import DocAudit.Proofs.Source.Attribute
import DocAudit.Proofs.Source.Signature
import Mathlib.Tactic.ByContra

/-!
# A blank line more: attributes and signatures

A blank line put into a file moves the lines below it and changes nothing else that the readers of
several lines say, as long as they are not at their limit.

* `SourceFile.insertBlank`: the file with the blank line; `moveLine`: where its lines are then.
* `readAttribute?_insertIdx`, `readSignature_insertIdx`: the readers pass over the blank line.
* `SourceFile.attributeAt?_insertBlank`, `SourceFile.attributeEndingAt?_insertBlank`: the
  attributes of the two files correspond.
-/

namespace DocAudit

/-! ## Numbers of lines -/

/-- The number of a line after a line has been put before line `k`. -/
def moveLine (k n : Nat) : Nat := if n < k then n else n + 1

theorem moveLine_of_lt {k n : Nat} (h : n < k) : moveLine k n = n := if_pos h

theorem moveLine_of_le {k n : Nat} (h : k ≤ n) : moveLine k n = n + 1 :=
  if_neg (Nat.not_lt.2 h)

theorem moveLine_lt_iff {k m n : Nat} : moveLine k m < moveLine k n ↔ m < n := by
  unfold moveLine
  split <;> split <;> omega

theorem moveLine_injective (k : Nat) : Function.Injective (moveLine k) := by
  intro m n h
  unfold moveLine at h
  split at h <;> split at h <;> omega

/-- Every number but that of the new line is taken by a line that was there before. -/
theorem exists_moveLine {k m : Nat} (h : m ≠ k) : ∃ n, moveLine k n = m := by
  rcases Nat.lt_or_gt_of_ne h with hlt | hgt
  · exact ⟨m, moveLine_of_lt hlt⟩
  · refine ⟨m - 1, ?_⟩
    rw [moveLine_of_le (by omega)]
    omega

theorem moveLine_sub {k n : Nat} (h : n ≤ k) (m : Nat) :
    moveLine (k - n) m = moveLine k (n + m) - n := by
  unfold moveLine
  split <;> split <;> omega

theorem moveLine_succ (k n : Nat) : moveLine (k + 1) (n + 1) = moveLine k n + 1 := by
  unfold moveLine
  split <;> split <;> omega

/-! ## Lists of lines -/

theorem drop_insertIdx_of_le {α : Type} {l : List α} {a : α} {n k : Nat} (h : n ≤ k)
    (hk : k ≤ l.length) : (l.insertIdx k a).drop n = (l.drop n).insertIdx (k - n) a := by
  induction n generalizing k l with
  | zero => rfl
  | succ n ih =>
    obtain ⟨k, rfl⟩ := Nat.exists_eq_succ_of_ne_zero (by omega : k ≠ 0)
    cases l with
    | nil => cases hk
    | cons b l =>
      rw [List.insertIdx_succ_cons, List.drop_succ_cons, List.drop_succ_cons,
        ih (Nat.le_of_succ_le_succ h) (Nat.le_of_succ_le_succ hk), Nat.succ_sub_succ]

theorem drop_succ_insertIdx {α : Type} {l : List α} {a : α} {n k : Nat} (h : k ≤ n)
    (hk : k ≤ l.length) : (l.insertIdx k a).drop (n + 1) = l.drop n := by
  induction k generalizing n l with
  | zero => rw [List.insertIdx_zero, List.drop_succ_cons]
  | succ k ih =>
    obtain ⟨n, rfl⟩ := Nat.exists_eq_succ_of_ne_zero (by omega : n ≠ 0)
    cases l with
    | nil => cases hk
    | cons b l =>
      simp only [List.insertIdx_succ_cons, List.drop_succ_cons]
      exact ih (Nat.le_of_succ_le_succ h) (Nat.le_of_succ_le_succ hk)

/-! ## Attributes -/

theorem gatherAttribute_blank {b : Brackets} (hb : ¬ b.depth = 0) (t : Text) (n : Nat)
    (others : List Text) :
    gatherAttribute b t (n + 1) ([] :: others) =
      (gatherAttribute b t n others).map fun (whole, extra) => (whole, extra + 1) :=
  gatherAttribute_cons hb t n (by decide) others

theorem gatherAttribute_insertIdx {b : Brackets} {t whole : Text} {n extra j : Nat}
    {rest : List Text} (h : gatherAttribute b t n rest = some (whole, extra)) (hn : extra < n)
    (hj : j ≤ rest.length) :
    gatherAttribute b t n (rest.insertIdx j []) = some (whole, moveLine (j + 1) extra) := by
  fun_induction gatherAttribute b t n rest generalizing whole extra j with
  | case1 b t n rest hb ht =>
    cases h
    rw [gatherAttribute_of_depth_eq_zero hb, if_pos ht]
    rfl
  | case2 => cases h
  | case3 => cases h
  | case4 b t hb n line others hl ih =>
    cases j with
    | zero =>
      have hextra : extra ≠ 0 := by
        rintro rfl
        obtain ⟨⟨w, e⟩, -, hwe⟩ := Option.map_eq_some_iff.1 h
        cases hwe
      rw [← gatherAttribute_cons hb t n hl] at h
      rw [List.insertIdx_zero, gatherAttribute_blank hb,
        gatherAttribute_congr h (Nat.le_of_lt_succ hn) rfl, moveLine_of_le (by omega)]
      rfl
    | succ j =>
      obtain ⟨⟨w, e⟩, he, hwe⟩ := Option.map_eq_some_iff.1 h
      cases hwe
      rw [List.insertIdx_succ_cons, gatherAttribute_cons hb t n hl,
        ih he (by omega) (Nat.le_of_succ_le_succ hj), moveLine_succ]
      rfl
  | case5 => cases h

/-- A blank line does not complete an attribute. -/
theorem exists_of_gatherAttribute_insertIdx {b : Brackets} {t whole : Text} {n extra j : Nat}
    {rest : List Text} (h : gatherAttribute b t n (rest.insertIdx j []) = some (whole, extra))
    (hj : j ≤ rest.length) : ∃ found, gatherAttribute b t n rest = some found := by
  by_cases hb : b.depth = 0
  · rw [gatherAttribute_of_depth_eq_zero hb] at h ⊢
    exact ⟨_, h⟩
  · cases n with
    | zero =>
      rw [gatherAttribute_zero hb] at h
      cases h
    | succ n =>
      cases j with
      | zero =>
        rw [List.insertIdx_zero, gatherAttribute_blank hb] at h
        obtain ⟨⟨w, e⟩, he, -⟩ := Option.map_eq_some_iff.1 h
        exact ⟨_, gatherAttribute_congr he (Nat.le_succ_of_le (gatherAttribute_le he).1) rfl⟩
      | succ j =>
        cases rest with
        | nil => cases hj
        | cons line others =>
          rw [List.insertIdx_succ_cons] at h
          by_cases hl : (isBlockBoundary line || isStructuredComment line) = true
          · rw [gatherAttribute_of_stop hb t _ hl] at h
            cases h
          · rw [gatherAttribute_cons hb t n hl] at h ⊢
            obtain ⟨⟨w, e⟩, he, -⟩ := Option.map_eq_some_iff.1 h
            obtain ⟨found, hf⟩ :=
              exists_of_gatherAttribute_insertIdx he (Nat.le_of_succ_le_succ hj)
            rw [hf]
            exact ⟨_, rfl⟩

/-- The reader of attributes passes over a blank line below its first, unless it is at its
limit. -/
theorem readAttribute?_insertIdx {lines : List Text} {k : Nat} (hk : 0 < k)
    (hle : k ≤ lines.length)
    (hmax : ∀ whole extra, readAttribute? lines = some (whole, extra) →
      extra < maxAttributeLines) :
    readAttribute? (lines.insertIdx k []) =
      (readAttribute? lines).map fun (whole, extra) => (whole, moveLine k extra) := by
  obtain ⟨j, rfl⟩ := Nat.exists_eq_succ_of_ne_zero (Nat.ne_of_gt hk)
  cases lines with
  | nil => cases hle
  | cons line rest =>
    have hj : j ≤ rest.length := Nat.le_of_succ_le_succ hle
    rw [List.insertIdx_succ_cons]
    cases h : readAttribute? (line :: rest) with
    | some found =>
      obtain ⟨whole, extra⟩ := found
      obtain ⟨ho, hg⟩ := readAttribute?_eq_some_iff.1 h
      exact readAttribute?_eq_some_iff.2
        ⟨ho, gatherAttribute_insertIdx hg (hmax whole extra h) hj⟩
    | none =>
      cases h' : readAttribute? (line :: rest.insertIdx j []) with
      | none => rfl
      | some found =>
        obtain ⟨ho, hg⟩ := readAttribute?_eq_some_iff.1 h'
        obtain ⟨⟨w, e⟩, he⟩ := exists_of_gatherAttribute_insertIdx hg hj
        rw [readAttribute?_eq_some_iff.2 ⟨ho, he⟩] at h
        cases h

/-! ## Signatures -/

theorem gatherSignature_blank {t : Text} (ht : ¬ parametersClosed t = true) (n : Nat)
    (others : List Text) :
    gatherSignature t (n + 1) ([] :: others) =
      ((gatherSignature t n others).1, (gatherSignature t n others).2 + 1) :=
  gatherSignature_cons ht (by decide) n others

theorem gatherSignature_insertIdx {t whole : Text} {n extra j : Nat} {rest : List Text}
    (h : gatherSignature t n rest = (whole, extra)) (hc : parametersClosed whole = true)
    (hn : extra < n) (hj : j ≤ rest.length) :
    gatherSignature t n (rest.insertIdx j []) = (whole, moveLine (j + 1) extra) := by
  by_cases ht : parametersClosed t = true
  · rw [gatherSignature_of_closed ht] at h ⊢
    cases h
    rfl
  · obtain ⟨n, rfl⟩ := Nat.exists_eq_succ_of_ne_zero (by omega : n ≠ 0)
    have hextra : extra ≠ 0 := by
      rintro rfl
      have hzero : gatherSignature t 0 rest = (whole, 0) :=
        gatherSignature_congr h hc (Nat.le_refl 0) rfl
      rw [gatherSignature_zero] at hzero
      cases hzero
      exact ht hc
    cases j with
    | zero =>
      rw [List.insertIdx_zero, gatherSignature_blank ht,
        gatherSignature_congr h hc (Nat.le_of_lt_succ hn) rfl, moveLine_of_le (by omega)]
    | succ j =>
      cases rest with
      | nil => cases hj
      | cons line others =>
        by_cases hl : isBlockBoundary line = true
        · rw [gatherSignature_of_boundary t _ hl] at h
          cases h
          exact absurd rfl hextra
        · rw [gatherSignature_cons ht hl] at h
          obtain ⟨rfl, rfl⟩ := Prod.mk.injEq _ _ _ _ ▸ h
          rw [List.insertIdx_succ_cons, gatherSignature_cons ht hl,
            gatherSignature_insertIdx rfl hc (by omega) (Nat.le_of_succ_le_succ hj),
            moveLine_succ]

/-- A blank line does not close a signature. -/
theorem parametersClosed_of_insertIdx {t : Text} {n j : Nat} {rest : List Text}
    (h : parametersClosed (gatherSignature t n (rest.insertIdx j [])).1 = true)
    (hj : j ≤ rest.length) : parametersClosed (gatherSignature t n rest).1 = true := by
  by_cases ht : parametersClosed t = true
  · rw [gatherSignature_of_closed ht]
    exact ht
  · cases n with
    | zero =>
      rw [gatherSignature_zero] at h
      exact absurd h ht
    | succ n =>
      cases j with
      | zero =>
        rw [List.insertIdx_zero, gatherSignature_blank ht] at h
        have hle := (gatherSignature_extra_le t n rest).1
        have hmore : gatherSignature t (n + 1) rest = gatherSignature t n rest :=
          gatherSignature_congr rfl h (by omega) rfl
        rw [hmore]
        exact h
      | succ j =>
        cases rest with
        | nil => cases hj
        | cons line others =>
          rw [List.insertIdx_succ_cons] at h
          by_cases hl : isBlockBoundary line = true
          · rw [gatherSignature_of_boundary t _ hl] at h
            exact absurd h ht
          · rw [gatherSignature_cons ht hl] at h ⊢
            exact parametersClosed_of_insertIdx h (Nat.le_of_succ_le_succ hj)

/-- The reader of signatures passes over a blank line below its first, unless it is at its
limit. -/
theorem readSignature_insertIdx {lines : List Text} {whole : Text} {extra k : Nat} (hk : 0 < k)
    (hle : k ≤ lines.length) (h : readSignature lines = (whole, extra))
    (hc : parametersClosed whole = true) (hmax : extra < maxSignatureLines) :
    readSignature (lines.insertIdx k []) = (whole, moveLine k extra) := by
  obtain ⟨j, rfl⟩ := Nat.exists_eq_succ_of_ne_zero (Nat.ne_of_gt hk)
  cases lines with
  | nil => cases hle
  | cons line rest => exact gatherSignature_insertIdx h hc hmax (Nat.le_of_succ_le_succ hle)

theorem parametersClosed_readSignature_of_insertIdx {lines : List Text} {k : Nat} (hk : 0 < k)
    (hle : k ≤ lines.length)
    (h : parametersClosed (readSignature (lines.insertIdx k [])).1 = true) :
    parametersClosed (readSignature lines).1 = true := by
  obtain ⟨j, rfl⟩ := Nat.exists_eq_succ_of_ne_zero (Nat.ne_of_gt hk)
  cases lines with
  | nil => cases hle
  | cons line rest => exact parametersClosed_of_insertIdx h (Nat.le_of_succ_le_succ hle)

/-! ## Files -/

namespace SourceFile

variable {f : SourceFile} {k n : Nat}

/-- The file with a blank line before line `k`. -/
def insertBlank (f : SourceFile) (k : Nat) : SourceFile :=
  { f with lines := f.lines.insertIdx k [] }

/-- No attribute takes all the lines that one may take. -/
def AttributesFit (f : SourceFile) : Prop :=
  ∀ first whole last, f.attributeAt? first = some (whole, last) → last < first + maxAttributeLines

/-- No signature that closes takes all the lines that one may take. -/
def SignaturesFit (f : SourceFile) : Prop :=
  ∀ first, (f.line? first).any startsProcedure = true →
    parametersClosed (f.signatureAt first).1 = true →
      (f.signatureAt first).2 < first + maxSignatureLines

theorem line?_insertBlank_self (hk : k ≤ f.lineCount) : (f.insertBlank k).line? k = some [] := by
  rw [line?, insertBlank, List.getElem?_insertIdx_self]
  exact if_pos hk

theorem line?_insertBlank (f : SourceFile) (k n : Nat) :
    (f.insertBlank k).line? (moveLine k n) = f.line? n := by
  rw [line?, insertBlank]
  rcases Nat.lt_or_ge n k with h | h
  · rw [moveLine_of_lt h, List.getElem?_insertIdx_of_lt h]
    rfl
  · rw [moveLine_of_le h, List.getElem?_insertIdx_of_gt (Nat.lt_succ_of_le h)]
    rfl

theorem linesFrom_insertBlank_of_le (hk : k ≤ f.lineCount) (h : n ≤ k) :
    (f.insertBlank k).linesFrom n = (f.linesFrom n).insertIdx (k - n) [] :=
  drop_insertIdx_of_le h hk

theorem linesFrom_insertBlank_succ (hk : k ≤ f.lineCount) (h : k ≤ n) :
    (f.insertBlank k).linesFrom (n + 1) = f.linesFrom n := drop_succ_insertIdx h hk

theorem sub_le_length_linesFrom (hk : k ≤ f.lineCount) : k - n ≤ (f.linesFrom n).length := by
  rw [linesFrom, List.length_drop]
  exact Nat.sub_le_sub_right hk n

theorem readAttribute?_insertBlank (hk : k ≤ f.lineCount) (hfit : f.AttributesFit) (n : Nat) :
    readAttribute? ((f.insertBlank k).linesFrom (moveLine k n)) =
      (readAttribute? (f.linesFrom n)).map
        fun (whole, extra) => (whole, moveLine k (n + extra) - moveLine k n) := by
  rcases Nat.lt_or_ge n k with h | h
  · have hmax : ∀ whole extra, readAttribute? (f.linesFrom n) = some (whole, extra) →
        extra < maxAttributeLines := fun whole extra he =>
      Nat.lt_of_add_lt_add_left (hfit n whole _ (attributeAt?_eq_some_iff.2 ⟨extra, he, rfl⟩))
    rw [moveLine_of_lt h, linesFrom_insertBlank_of_le hk (Nat.le_of_lt h),
      readAttribute?_insertIdx (Nat.sub_pos_of_lt h) (sub_le_length_linesFrom hk) hmax]
    congr 1
    funext ⟨whole, extra⟩
    exact Prod.ext rfl (moveLine_sub (Nat.le_of_lt h) extra)
  · rw [moveLine_of_le h, linesFrom_insertBlank_succ hk h]
    cases readAttribute? (f.linesFrom n) with
    | none => rfl
    | some found =>
      obtain ⟨whole, extra⟩ := found
      simp only [Option.map_some]
      rw [moveLine_of_le (Nat.le_trans h (Nat.le_add_right n extra)), Nat.add_right_comm,
        Nat.add_sub_cancel_left]

/-- **Attributes move with their lines.** -/
theorem attributeAt?_insertBlank (hk : k ≤ f.lineCount) (hfit : f.AttributesFit) (first : Nat) :
    (f.insertBlank k).attributeAt? (moveLine k first) =
      (f.attributeAt? first).map fun (whole, last) => (whole, moveLine k last) := by
  rw [attributeAt?, attributeAt?, readAttribute?_insertBlank hk hfit, Option.map_map,
    Option.map_map]
  congr 1
  funext found
  obtain ⟨whole, extra⟩ := found
  have hle : moveLine k first ≤ moveLine k (first + extra) := by
    unfold moveLine
    split <;> split <;> omega
  simp only [Function.comp_apply, Prod.mk.injEq, true_and]
  omega

/-- **The search from the last line of an attribute moves with it.** -/
theorem attributeEndingAt?_insertBlank (hk : k ≤ f.lineCount) (hfit : f.AttributesFit)
    (last : Nat) :
    (f.insertBlank k).attributeEndingAt? (moveLine k last) =
      (f.attributeEndingAt? last).map (moveLine k) := by
  have hat := attributeAt?_insertBlank hk hfit
  have hblank := line?_insertBlank_self hk
  apply Option.ext
  intro first'
  rw [attributeEndingAt?_eq_some_iff, Option.map_eq_some_iff]
  constructor
  · rintro ⟨hlt, ⟨whole, ha⟩, hbetween⟩
    -- The blank line opens no attribute.
    have hne : first' ≠ k := by
      rintro rfl
      have hopen := (attributeAt?_le ha).2.2.2
      rw [hblank] at hopen
      cases hopen
    obtain ⟨first, rfl⟩ := exists_moveLine hne
    rw [hat, Option.map_eq_some_iff] at ha
    obtain ⟨⟨w, l⟩, ha, heq⟩ := ha
    obtain ⟨rfl, hl⟩ := Prod.mk.injEq _ _ _ _ ▸ heq
    rw [moveLine_injective k hl] at ha
    refine ⟨first, attributeEndingAt?_eq_some_iff.2
      ⟨moveLine_lt_iff.1 hlt, ⟨w, ha⟩, fun m h1 h2 => ?_⟩, rfl⟩
    rw [← line?_insertBlank f k m]
    exact hbetween _ (moveLine_lt_iff.2 h1) (moveLine_lt_iff.2 h2)
  · rintro ⟨first, hf, rfl⟩
    obtain ⟨hlt, ⟨whole, ha⟩, hbetween⟩ := attributeEndingAt?_eq_some_iff.1 hf
    refine ⟨moveLine_lt_iff.2 hlt, ⟨whole, by rw [hat, ha]; rfl⟩, ?_⟩
    intro m h1 h2
    by_cases hm : m = k
    · exact ⟨[], hm ▸ hblank, rfl⟩
    · obtain ⟨m, rfl⟩ := exists_moveLine hm
      rw [line?_insertBlank]
      exact hbetween m (moveLine_lt_iff.1 h1) (moveLine_lt_iff.1 h2)

end SourceFile

end DocAudit
