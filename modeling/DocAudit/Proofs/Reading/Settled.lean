import DocAudit.Proofs.Reading.Order
import DocAudit.Proofs.Source.Code
import DocAudit.Proofs.Source.Signature

/-!
# Settled lines

Signatures and attributes are read over several lines, so that what opens on a line of a file can
depend on lines after the last one of the file.

* `Settled`: further lines complete nothing that opens on a line.
* `settled_of_plain`, `settled_of_stop`: lines that are settled.
* `exists_of_not_settled`: what opens on any other line can be made to end with the file.
-/

namespace DocAudit

/-! ## Readers of several lines -/

/-- A reader that takes at most `n` lines stops among these: at its limit, or at the edge of a
body. -/
def StopsWithin (n : Nat) (rest : List Text) : Prop :=
  n ≤ rest.length ∨ ∃ line ∈ rest, isBlockBoundary line = true

theorem not_stopsWithin_nil (n : Nat) : ¬ StopsWithin (n + 1) [] := by
  rintro (h | ⟨line, hl, -⟩)
  · cases h
  · cases hl

theorem StopsWithin.tail {n : Nat} {line : Text} {rest : List Text}
    (h : StopsWithin (n + 1) (line :: rest)) (hl : ¬ isBlockBoundary line = true) :
    StopsWithin n rest := by
  refine h.imp Nat.le_of_succ_le_succ ?_
  rintro ⟨l, hmem, hedge⟩
  rcases List.mem_cons.1 hmem with rfl | hmem
  · exact absurd hedge hl
  · exact ⟨l, hmem, hedge⟩

/-- A reader of signatures that stops reads no further lines. -/
theorem gatherSignature_append {t : Text} {n : Nat} {rest : List Text} (h : StopsWithin n rest)
    (ls : List Text) : gatherSignature t n (rest ++ ls) = gatherSignature t n rest := by
  by_cases ht : parametersClosed t = true
  · rw [gatherSignature_of_closed ht, gatherSignature_of_closed ht]
  · cases n with
    | zero => rw [gatherSignature_zero, gatherSignature_zero]
    | succ n =>
      cases rest with
      | nil => exact absurd h (not_stopsWithin_nil n)
      | cons line others =>
        rw [List.cons_append]
        by_cases hl : isBlockBoundary line = true
        · rw [gatherSignature_of_boundary t _ hl, gatherSignature_of_boundary t _ hl]
        · rw [gatherSignature_cons ht hl, gatherSignature_cons ht hl,
            gatherSignature_append (h.tail hl)]

theorem gatherAttribute_append {b : Brackets} {t : Text} {n : Nat} {rest : List Text}
    (h : StopsWithin n rest) (ls : List Text) :
    gatherAttribute b t n (rest ++ ls) = gatherAttribute b t n rest := by
  by_cases hb : b.depth = 0
  · rw [gatherAttribute_of_depth_eq_zero hb, gatherAttribute_of_depth_eq_zero hb]
  · cases n with
    | zero => rw [gatherAttribute_zero hb, gatherAttribute_zero hb]
    | succ n =>
      cases rest with
      | nil => exact absurd h (not_stopsWithin_nil n)
      | cons line others =>
        rw [List.cons_append]
        by_cases hl : (isBlockBoundary line || isStructuredComment line) = true
        · rw [gatherAttribute_of_stop hb t _ hl, gatherAttribute_of_stop hb t _ hl]
        · have hedge : ¬ isBlockBoundary line = true := fun hedge => hl (by rw [hedge]; rfl)
          rw [gatherAttribute_cons hb t n hl, gatherAttribute_cons hb t n hl,
            gatherAttribute_append (h.tail hedge)]

theorem opensAttribute_eq_false_of_startsProcedure {line : Text}
    (h : startsProcedure line = true) : opensAttribute line = false :=
  opensAttribute_eq_false_of_hasPlainCode (hasPlainCode_of_startsProcedure h)

/-! ## Settled lines -/

/-- No further lines complete an attribute or a signature that opens on a line. -/
def Settled (line : Text) (rest : List Text) : Prop :=
  ∀ ls, readAttribute? (line :: (rest ++ ls)) = readAttribute? (line :: rest) ∧
    SourceFile.headerAt? line (rest ++ ls) = SourceFile.headerAt? line rest

section

variable {line : Text} {rest : List Text}

theorem readAttribute?_of_not_opensAttribute (h : opensAttribute line = false)
    (rest : List Text) : readAttribute? (line :: rest) = none := by
  rw [readAttribute?, if_neg (by rw [h]; exact Bool.false_ne_true)]

theorem headerAt?_of_not_startsProcedure (h : startsProcedure line = false) (rest : List Text) :
    SourceFile.headerAt? line rest = none := by
  rw [SourceFile.headerAt?, if_neg (by rw [h]; exact Bool.false_ne_true)]

theorem headerAt?_congr {header : ProcedureHeader} {whole : Text} {extra : Nat}
    {rest' : List Text} (h : SourceFile.headerAt? line rest = some (header, whole, extra))
    (heq : rest'.take extra = rest.take extra) :
    SourceFile.headerAt? line rest' = some (header, whole, extra) := by
  obtain ⟨hs, hw, hh⟩ := SourceFile.headerAt?_eq_some_iff.1 h
  have hclosed : parametersClosed whole = true := parametersClosed_of_read? (by rw [hh]; rfl)
  have hle := (gatherSignature_extra_le (codeOf line) maxSignatureLines rest).1
  rw [readSignature] at hw
  rw [hw] at hle
  exact SourceFile.headerAt?_eq_some_iff.2 ⟨hs, gatherSignature_congr hw hclosed hle heq, hh⟩

theorem settled_of_readAttribute? {whole : Text} {extra : Nat}
    (h : readAttribute? (line :: rest) = some (whole, extra)) : Settled line rest := by
  have hopen := (readAttribute?_eq_some_iff.1 h).1
  have hstart : startsProcedure line = false := by
    by_contra hstart
    rw [opensAttribute_eq_false_of_startsProcedure (eq_true_of_ne_false hstart)] at hopen
    cases hopen
  intro ls
  constructor
  · refine (readAttribute?_congr h ?_).trans h.symm
    rw [← List.cons_append, List.take_append_of_le_length]
    exact Nat.succ_le_succ (readAttribute?_le h).2
  · rw [headerAt?_of_not_startsProcedure hstart, headerAt?_of_not_startsProcedure hstart]

theorem settled_of_headerAt? {header : ProcedureHeader} {whole : Text} {extra : Nat}
    (h : SourceFile.headerAt? line rest = some (header, whole, extra)) : Settled line rest := by
  have hopen := opensAttribute_eq_false_of_startsProcedure (SourceFile.headerAt?_eq_some_iff.1 h).1
  intro ls
  constructor
  · rw [readAttribute?_of_not_opensAttribute hopen, readAttribute?_of_not_opensAttribute hopen]
  · refine (headerAt?_congr h ?_).trans h.symm
    rw [List.take_append_of_le_length (SourceFile.headerAt?_le h)]

theorem settled_of_plain (ha : opensAttribute line = false) (hp : startsProcedure line = false)
    (rest : List Text) : Settled line rest := fun ls =>
  ⟨by rw [readAttribute?_of_not_opensAttribute ha, readAttribute?_of_not_opensAttribute ha],
    by rw [headerAt?_of_not_startsProcedure hp, headerAt?_of_not_startsProcedure hp]⟩

/-- A line with an edge of a body below it is settled, and so is one with enough lines below it. -/
theorem settled_of_stop (line : Text) (h : StopsWithin maxSignatureLines rest) :
    Settled line rest := by
  have hattribute : StopsWithin maxAttributeLines rest := h.imp_left (Nat.le_trans (by decide))
  intro ls
  constructor
  · rw [readAttribute?, readAttribute?, gatherAttribute_append hattribute]
  · rw [SourceFile.headerAt?, SourceFile.headerAt?, readSignature, readSignature,
      gatherSignature_append h]

/-- A reader that looks only at the lines it takes, and says something else when lines are appended,
takes just the lines there are when some lines are appended. -/
theorem exists_of_append_ne {α : Type} (read : List Text → Option α) (extent : α → Nat)
    (hle : ∀ {rest found}, read rest = some found → extent found ≤ rest.length)
    (hcongr : ∀ {rest rest' found}, read rest = some found →
      rest'.take (extent found) = rest.take (extent found) → read rest' = some found)
    {ls : List Text} (h : read (rest ++ ls) ≠ read rest) :
    ∃ ls' found, read (rest ++ ls') = some found ∧ extent found = rest.length + ls'.length := by
  cases hread : read (rest ++ ls) with
  | none =>
    cases hread' : read rest with
    | none => exact absurd (hread.trans hread'.symm) h
    | some found =>
      have htake : (rest ++ ls).take (extent found) = rest.take (extent found) :=
        List.take_append_of_le_length (hle hread')
      have hsome := hcongr hread' htake
      rw [hread] at hsome
      cases hsome
  | some found =>
    have hlen := hle hread
    rw [List.length_append] at hlen
    have hlt : rest.length < extent found := by
      by_contra hge
      refine h (hread.trans (hcongr hread ?_).symm)
      rw [List.take_append_of_le_length (Nat.not_lt.1 hge)]
    refine ⟨ls.take (extent found - rest.length), found, hcongr hread ?_, ?_⟩
    · rw [List.take_append, List.take_append, List.take_take, Nat.min_self]
    · rw [List.length_take]
      omega

/-- Whatever is not settled is completed by some lines, the last of which is its last line. -/
theorem exists_of_not_settled (h : ¬ Settled line rest) :
    ∃ ls, (∃ whole, readAttribute? (line :: (rest ++ ls)) =
        some (whole, rest.length + ls.length)) ∨
      (readAttribute? (line :: (rest ++ ls)) = none ∧
        ∃ header whole, SourceFile.headerAt? line (rest ++ ls) =
          some (header, whole, rest.length + ls.length)) := by
  rw [Settled, not_forall] at h
  obtain ⟨ls, hls⟩ := h
  rw [not_and_or] at hls
  rcases hls with ha | hh
  · obtain ⟨ls', ⟨whole, extra⟩, hread, hextra⟩ := exists_of_append_ne
      (fun rest => readAttribute? (line :: rest)) Prod.snd
      (fun h => (readAttribute?_le h).2)
      (fun h heq => readAttribute?_congr h (by rw [List.take_succ_cons, List.take_succ_cons, heq]))
      ha
    exact ⟨ls', Or.inl ⟨whole, by rw [hread, ← hextra]⟩⟩
  · obtain ⟨ls', ⟨header, whole, extra⟩, hread, hextra⟩ := exists_of_append_ne
      (SourceFile.headerAt? line) (fun found => found.2.2)
      (fun h => SourceFile.headerAt?_le h) (fun h heq => headerAt?_congr h heq) hh
    have hopen := opensAttribute_eq_false_of_startsProcedure
      (SourceFile.headerAt?_eq_some_iff.1 hread).1
    exact ⟨ls', Or.inr ⟨readAttribute?_of_not_opensAttribute hopen _, header, whole,
      by rw [hread, ← hextra]⟩⟩

end

end DocAudit
