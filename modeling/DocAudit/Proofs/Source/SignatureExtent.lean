import DocAudit.Proofs.Source.Signature

/-!
# Where a signature ends

The reader of signatures takes one line after the other. It goes on as long as the parameters are
not closed in what it has gathered, and it stops for no other reason than the end of the file, the
edge of a body on the next line, or its limit. So there is one line where it can stop, and nothing
behind the line after that one has a say in it.

* `SourceFile.codeBetween`: the code of some lines of a file, on one line.
* `SourceFile.ReadsTo`: the lines the reader may get to; `SourceFile.ReadsTo.next` is its step.
* `SourceFile.SignatureEnds`: the line where it stops, and what it has gathered there.
* `SourceFile.signatureAt_stops`: where a signature ends, and which lines decide it.
-/

namespace DocAudit

/-! ## The code of some lines -/

/-- The code of some lines, on one line. A line after the first adds its code after a space, or
nothing if it has none. -/
def joinCode : List Text → Text
  | [] => []
  | line :: rest => codeOf line ++ rest.flatMap fun l => joinPiece [] (codeOf l)

theorem joinPiece_eq_append (t piece : Text) : joinPiece t piece = t ++ joinPiece [] piece := by
  by_cases h : piece = []
  · simp [joinPiece, h]
  · simp [joinPiece, h]

theorem joinCode_concat {ls : List Text} (h : ls ≠ []) (line : Text) :
    joinCode (ls ++ [line]) = joinPiece (joinCode ls) (codeOf line) := by
  obtain ⟨first, rest, rfl⟩ := List.exists_cons_of_ne_nil h
  rw [joinPiece_eq_append, List.cons_append, joinCode, joinCode, List.flatMap_append,
    List.flatMap_singleton, List.append_assoc]

namespace SourceFile

/-- The code of the lines from `first` to `last`, on one line. -/
def codeBetween (f : SourceFile) (first last : Nat) : Text :=
  joinCode ((f.linesFrom first).take (last + 1 - first))

variable {f g : SourceFile} {first last m k : Nat} {text line : Text}

theorem codeBetween_self (h : f.line? first = some line) :
    f.codeBetween first first = codeOf line := by
  rw [codeBetween, linesFrom_eq_cons h, Nat.add_sub_cancel_left]
  simp [joinCode]

theorem codeBetween_succ (hk : first ≤ k) (h : f.line? (k + 1) = some line) :
    f.codeBetween first (k + 1) = joinPiece (f.codeBetween first k) (codeOf line) := by
  obtain ⟨hlt, -⟩ := List.getElem?_eq_some_iff.1 h
  have hne : (f.linesFrom first).take (k + 1 - first) ≠ [] := by
    apply List.ne_nil_of_length_pos
    simp only [linesFrom, List.length_take, List.length_drop]
    omega
  have hlast : (f.linesFrom first)[k + 1 - first]? = some line := by
    rw [linesFrom, List.getElem?_drop, Nat.add_sub_of_le (by omega)]
    exact h
  rw [codeBetween, Nat.succ_sub (by omega), List.take_add_one, hlast]
  exact joinCode_concat hne line

theorem codeBetween_congr (h : ∀ n, n ≤ last → g.line? n = f.line? n) :
    g.codeBetween first last = f.codeBetween first last := by
  have hlines : (g.linesFrom first).take (last + 1 - first) =
      (f.linesFrom first).take (last + 1 - first) := by
    apply List.ext_getElem?
    intro i
    simp only [linesFrom, List.getElem?_take, List.getElem?_drop]
    by_cases hi : i < last + 1 - first
    · rw [if_pos hi, if_pos hi]
      exact h (first + i) (by omega)
    · rw [if_neg hi, if_neg hi]
  rw [codeBetween, codeBetween, hlines]

/-! ## The reader at a line -/

/-- The reader of the signature on line `first` may get to line `last`: it is within the file and
the limit, no line on the way to it is the edge of a body, and no line before it closes the
parameters. -/
structure ReadsTo (f : SourceFile) (first last : Nat) : Prop where
  first_le : first ≤ last
  le_limit : last ≤ first + maxSignatureLines
  lt_lineCount : last < f.lineCount
  noBoundary : ∀ n line, first < n → n ≤ last → f.line? n = some line →
    isBlockBoundary line = false
  notClosed : ∀ m, first ≤ m → m < last → parametersClosed (f.codeBetween first m) = false

/-- The signature on line `first` ends on line `last` as `text`: the reader gets there, and either
the parameters are closed now or there is no line that it may take next. -/
structure SignatureEnds (f : SourceFile) (first : Nat) (text : Text) (last : Nat) : Prop where
  readsTo : f.ReadsTo first last
  text_eq : text = f.codeBetween first last
  stops : parametersClosed text = false → last + 1 = f.lineCount ∨
    (∃ line, f.line? (last + 1) = some line ∧ isBlockBoundary line = true) ∨
    last = first + maxSignatureLines

theorem ReadsTo.self (h : first < f.lineCount) : f.ReadsTo first first where
  first_le := le_rfl
  le_limit := Nat.le_add_right first maxSignatureLines
  lt_lineCount := h
  noBoundary := by
    intro n line hfirst hn
    omega
  notClosed := by
    intro m hfirst hm
    omega

/-- **One line more.** Where the parameters are still open and the limit is not reached, the reader
takes the next line unless it is the edge of a body. -/
theorem ReadsTo.next (h : f.ReadsTo first k)
    (hopen : parametersClosed (f.codeBetween first k) = false)
    (hlimit : k < first + maxSignatureLines) (hline : f.line? (k + 1) = some line)
    (hboundary : isBlockBoundary line = false) : f.ReadsTo first (k + 1) where
  first_le := Nat.le_succ_of_le h.first_le
  le_limit := hlimit
  lt_lineCount := line?_isSome_iff.1 (by rw [hline]; rfl)
  noBoundary := by
    intro n line' hfirst hn hline'
    by_cases hlast : n = k + 1
    · rw [hlast, hline, Option.some.injEq] at hline'
      rwa [← hline']
    · exact h.noBoundary n line' hfirst (by omega) hline'
  notClosed := by
    intro m hfirst hm
    by_cases hlast : m = k
    · rwa [hlast]
    · exact h.notClosed m hfirst (by omega)

/-! ## The run -/

/-- **The reader stops at the end of the signature**, wherever it is on the way there. -/
theorem ReadsTo.signatureEnds_gather {n extra : Nat} (h : f.ReadsTo first k)
    (hn : first + maxSignatureLines = k + n)
    (hgather : gatherSignature (f.codeBetween first k) n (f.linesFrom (k + 1)) = (text, extra)) :
    f.SignatureEnds first text (k + extra) := by
  -- On what is left of the limit; each line taken moves `k` on, and `ReadsTo` is what is kept.
  induction n generalizing k extra with
  | zero =>
    rw [gatherSignature_zero] at hgather
    cases hgather
    exact ⟨h, rfl, fun _ => Or.inr (Or.inr hn.symm)⟩
  | succ n ih =>
    by_cases hclosed : parametersClosed (f.codeBetween first k) = true
    · rw [gatherSignature_of_closed hclosed] at hgather
      cases hgather
      exact ⟨h, rfl, fun hopen => absurd hclosed (Bool.eq_false_iff.1 hopen)⟩
    · cases hline : f.line? (k + 1) with
      | none =>
        have hcount : f.lineCount ≤ k + 1 := List.getElem?_eq_none_iff.1 hline
        have hlt := h.lt_lineCount
        rw [linesFrom, List.drop_of_length_le hcount, gatherSignature_nil] at hgather
        cases hgather
        exact ⟨h, rfl, fun _ => Or.inl (by omega)⟩
      | some line =>
        rw [linesFrom_eq_cons hline] at hgather
        by_cases hboundary : isBlockBoundary line = true
        · rw [gatherSignature_of_boundary _ _ hboundary] at hgather
          cases hgather
          exact ⟨h, rfl, fun _ => Or.inr (Or.inl ⟨line, hline, hboundary⟩)⟩
        · rw [gatherSignature_cons hclosed hboundary,
            ← codeBetween_succ h.first_le hline] at hgather
          generalize hrest : gatherSignature (f.codeBetween first (k + 1)) n _ = result at hgather
          cases hgather
          have hnext := h.next (Bool.eq_false_iff.2 hclosed) (by omega) hline
            (Bool.eq_false_iff.2 hboundary)
          have hends := ih hnext (by omega) hrest
          rwa [Nat.add_assoc, Nat.add_comm 1] at hends

theorem signatureEnds_signatureAt (h : first < f.lineCount) :
    f.SignatureEnds first (f.signatureAt first).1 (f.signatureAt first).2 := by
  have hline : f.line? first = some f.lines[first] := List.getElem?_eq_getElem h
  rw [signatureAt, linesFrom_eq_cons hline, readSignature, ← codeBetween_self hline]
  exact (ReadsTo.self h).signatureEnds_gather rfl rfl

/-! ## One end -/

/-- The reader gets to no line behind the end of a signature. -/
theorem SignatureEnds.le_of_readsTo (h : f.SignatureEnds first text last)
    (hm : f.ReadsTo first m) : m ≤ last := by
  by_contra hlt
  rw [Nat.not_le] at hlt
  have hopen := hm.notClosed last h.readsTo.first_le hlt
  rw [← h.text_eq] at hopen
  obtain hend | ⟨line, hline, hboundary⟩ | hlimit := h.stops hopen
  · have := hm.lt_lineCount
    omega
  · have hno := hm.noBoundary (last + 1) line (Nat.lt_succ_of_le h.readsTo.first_le) hlt hline
    rw [hno] at hboundary
    cases hboundary
  · have := hm.le_limit
    omega

theorem signatureAt_eq_iff (h : first < f.lineCount) :
    f.signatureAt first = (text, last) ↔ f.SignatureEnds first text last := by
  have hends := signatureEnds_signatureAt h
  constructor
  · intro heq
    rwa [heq] at hends
  · intro hends'
    have hlast : (f.signatureAt first).2 = last :=
      Nat.le_antisymm (hends'.le_of_readsTo hends.readsTo) (hends.le_of_readsTo hends'.readsTo)
    have htext : (f.signatureAt first).1 = text := by
      rw [hends.text_eq, hlast, hends'.text_eq]
    rw [← hlast, ← htext]

/-! ## The lines that decide -/

theorem ReadsTo.congr (h : f.ReadsTo first last)
    (hlines : ∀ n, n ≤ last → g.line? n = f.line? n) : g.ReadsTo first last where
  first_le := h.first_le
  le_limit := h.le_limit
  lt_lineCount := by
    rw [← line?_isSome_iff, hlines last le_rfl, line?_isSome_iff]
    exact h.lt_lineCount
  noBoundary := by
    intro n line hfirst hn hline
    rw [hlines n hn] at hline
    exact h.noBoundary n line hfirst hn hline
  notClosed := by
    intro m hfirst hm
    rw [codeBetween_congr fun n hn => hlines n (by omega)]
    exact h.notClosed m hfirst hm

/-- A signature ends alike in files that agree up to its end and, unless the parameters are closed,
on the line after it. -/
theorem SignatureEnds.congr (h : f.SignatureEnds first text last)
    (hlines : ∀ n, n ≤ last → g.line? n = f.line? n)
    (hnext : parametersClosed text = true ∨ g.line? (last + 1) = f.line? (last + 1)) :
    g.SignatureEnds first text last where
  readsTo := h.readsTo.congr hlines
  text_eq := by rw [h.text_eq, codeBetween_congr hlines]
  stops := by
    intro hopen
    have hnext := hnext.resolve_left (Bool.eq_false_iff.1 hopen)
    have hcount := (h.readsTo.congr hlines).lt_lineCount
    rw [hnext]
    refine (h.stops hopen).imp_left ?_
    intro hend
    have hnone : g.line? (last + 1) = none := by
      rw [hnext, hend]
      exact List.getElem?_eq_none le_rfl
    have hle : g.lineCount ≤ last + 1 := List.getElem?_eq_none_iff.1 hnone
    omega

/-- **A signature ends at one line.** The reader takes the lines up to it, none of them the edge of
a body and none but the last closing the parameters, and if they stay open, the file ends there, a
body begins on the next line, or the limit is reached. Files that agree up to this line and on the
next one have the same signature, and if the parameters are closed they need not agree on the next
one. -/
theorem signatureAt_stops (hfirst : first < f.lineCount) :
    (f.signatureAt first = (text, last) ↔ f.SignatureEnds first text last) ∧
      (f.signatureAt first = (text, last) → ∀ g : SourceFile,
        (∀ n, n ≤ last → g.line? n = f.line? n) →
        parametersClosed text = true ∨ g.line? (last + 1) = f.line? (last + 1) →
          g.signatureAt first = (text, last)) := by
  refine ⟨signatureAt_eq_iff hfirst, ?_⟩
  intro heq g hlines hnext
  have hends := ((signatureAt_eq_iff hfirst).1 heq).congr hlines hnext
  have hcount : first < g.lineCount :=
    Nat.lt_of_le_of_lt hends.readsTo.first_le hends.readsTo.lt_lineCount
  exact (signatureAt_eq_iff hcount).2 hends

/-- A file in which a body begins before the parameters of the procedure on line 1 are closed. -/
def unfinishedFile : SourceFile where
  path := ⟨"Pay.al"⟩
  lines := ["codeunit 1 Pay", "procedure Pay(", "", "    Amount: Decimal; // net )", "begin", ")"]

theorem signatureAt_stops_unfinishedFile :
    1 < unfinishedFile.lineCount ∧
      unfinishedFile.SignatureEnds 1 "procedure Pay( Amount: Decimal;" 3 ∧
      ∀ g : SourceFile, (∀ n, n ≤ 3 → g.line? n = unfinishedFile.line? n) →
        g.line? 4 = some ("begin" : Text) →
          g.signatureAt 1 = (("procedure Pay( Amount: Decimal;" : Text), 3) := by
  have hcount : 1 < unfinishedFile.lineCount := by decide
  have hread :
      unfinishedFile.signatureAt 1 = (("procedure Pay( Amount: Decimal;" : Text), 3) := by
    decide +kernel
  refine ⟨hcount, (signatureAt_stops hcount).1.1 hread, ?_⟩
  intro g hlines hnext
  exact (signatureAt_stops hcount).2 hread g hlines (Or.inr hnext)

end SourceFile

end DocAudit
