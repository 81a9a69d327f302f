import DocAudit.Proofs.Reading.Declarations
import DocAudit.Proofs.Reading.Settled

/-!
# No declaration is lost

The pass over a file jumps over attributes and signatures of several lines. Every line of the object
that it has passed and that declares a procedure is accounted for: it is the line of a procedure, or
it lies among the lines the pass jumped over.

* `DeclaresProcedure`: a line opens a signature that is the header of a procedure.
* `Accounted`: where such a line can be.
* `step_covers`, `Reaches.covers`: one line of the pass, and all of them.
* `object?_accounted`: every line down to the last procedure of an object is accounted for.
-/

namespace DocAudit

theorem SourceObject.InOrder.filter_line {o : SourceObject} {next : Nat} (h : o.InOrder next)
    {p : Procedure} (hp : p ∈ o.procedures) :
    o.procedures.filter (fun q => decide (q.line = p.line)) = [p] := by
  obtain ⟨before, after, heq⟩ := List.append_of_mem hp
  have hpairwise := h.pairwise_line
  rw [heq, List.pairwise_append, List.pairwise_cons] at hpairwise
  obtain ⟨-, ⟨hafter, -⟩, hbefore⟩ := hpairwise
  have habove : before.filter (fun q => decide (q.line = p.line)) = [] := by
    refine List.filter_eq_nil_iff.2 fun q hq => ?_
    have := hbefore q hq p List.mem_cons_self
    simp only [decide_eq_true_eq]
    omega
  have hbelow : after.filter (fun q => decide (q.line = p.line)) = [] := by
    refine List.filter_eq_nil_iff.2 fun q hq => ?_
    have := hafter q hq
    simp only [decide_eq_true_eq]
    omega
  have hself : (p :: after).filter (fun q => decide (q.line = p.line)) = [p] := by
    rw [List.filter_cons, if_pos (decide_eq_true rfl), hbelow]
  rw [heq, List.filter_append, habove, hself, List.nil_append]

namespace SourceFile

variable {f : SourceFile} {s : Settings}

/-- A signature opens on the line, and it is the header of a procedure. -/
def DeclaresProcedure (f : SourceFile) (i : Nat) : Prop :=
  (f.line? i).any startsProcedure = true ∧
    (ProcedureHeader.read? (f.signatureAt i).1).isSome = true

/-- The line is that of a procedure, or it lies in the signature of one further up, or in an
attribute that opens further up. -/
inductive Accounted (f : SourceFile) (procedures : List Procedure) (i : Nat) : Prop
  | declared {p : Procedure} (hp : p ∈ procedures) (h : p.line = i)
  | inSignature {p : Procedure} (hp : p ∈ procedures) (h : p.line < i) (h' : i ≤ p.range.stop.line)
  | inAttribute {first last : Nat} {whole : Text} (ha : f.attributeAt? first = some (whole, last))
      (h : first < i) (h' : i ≤ last)

theorem Accounted.mono {procedures more : List Procedure} {i : Nat}
    (h : f.Accounted procedures i) (hsub : procedures ⊆ more) : f.Accounted more i := by
  cases h with
  | declared hp h => exact .declared (hsub hp) h
  | inSignature hp h h' => exact .inSignature (hsub hp) h h'
  | inAttribute ha h h' => exact .inAttribute ha h h'

/-- The pass has left no block comment open, and accounts for every line of the object above the
line it has come to. -/
structure Covers (f : SourceFile) (r : Reading) (n : Nat) : Prop where
  outside : r.inComment = false
  accounted : ∀ o, r.object = some o → ∀ i, o.line < i → i < n → f.DeclaresProcedure i →
    f.Accounted o.procedures i

theorem exists_headerAt? {n : Nat} {line : Text} (hl : f.line? n = some line)
    (h : f.DeclaresProcedure n) :
    startsProcedure line = true ∧ ∃ found, headerAt? line (f.linesFrom (n + 1)) = some found := by
  obtain ⟨hstart, hread⟩ := h
  rw [hl, Option.any_some] at hstart
  obtain ⟨header, hheader⟩ := Option.isSome_iff_exists.1 hread
  refine ⟨hstart, (header, readSignature (line :: f.linesFrom (n + 1))), ?_⟩
  rw [signatureAt, linesFrom_eq_cons hl] at hheader
  exact headerAt?_eq_some_iff.2 ⟨hstart, rfl, hheader⟩

/-- The procedure of a signature accounts for its lines. -/
theorem covers_readProcedure (hs : s.procedureTypes = []) {n extra : Nat} {whole : Text}
    {header : ProcedureHeader} {r : Reading} (hr : f.Covers r n) :
    f.Covers (f.readProcedure s n (n + extra) whole header r) (n + 1 + extra) := by
  refine ⟨hr.outside, fun o ho i hlow hhigh hi => ?_⟩
  have hall : s.allowsTraits (Traits.of r.attributes) = true :=
    s.allows_of_procedureTypes_eq_nil hs _ _
  simp only [readProcedure, hall, if_true] at ho
  obtain ⟨o', ho', rfl⟩ := Option.map_eq_some_iff.1 ho
  have hnew := List.mem_append_right o'.procedures (List.mem_singleton_self
    (f.procedure n (n + extra) whole header (Traits.of r.attributes)))
  rcases Nat.lt_trichotomy i n with h | rfl | h
  · exact (hr.accounted o' ho' i hlow h hi).mono (List.subset_append_left _ _)
  · exact .declared hnew rfl
  · exact .inSignature hnew h (show i ≤ n + extra by omega)

/-- **A line keeps every line above accounted for.** -/
theorem step_covers (hs : s.procedureTypes = []) {n : Nat} {line : Text} {r : Reading}
    (hl : f.line? n = some line) (hopen : ("/*" : Text).isPrefixOf (trim line) = false)
    (hr : f.Covers r n) :
    match f.step s n line (f.linesFrom (n + 1)) r with
    | .next r' extra => f.Covers r' (n + 1 + extra)
    | .done r' => f.Covers r' (n + 1)
    | .fragment => True := by
  have heffect := effect_step (f := f) (s := s) n line (f.linesFrom (n + 1)) r
  generalize f.step s n line (f.linesFrom (n + 1)) r = effect at heffect
  -- A line that declares nothing keeps the object and adds itself to the lines above.
  have hkeep {r' : Reading} (hc : r'.inComment = false) (ho : r'.object = r.object)
      (hn : ¬ f.DeclaresProcedure n) : f.Covers r' (n + 1) := by
    refine ⟨hc, fun o ho' i hlow hhigh hi => ?_⟩
    rcases Nat.eq_or_lt_of_le (Nat.le_of_lt_succ hhigh) with rfl | h
    · exact absurd hi hn
    · exact hr.accounted o (ho ▸ ho') i hlow h hi
  cases heffect with
  | comment h =>
    rw [hr.outside, hopen] at h
    cases h
  | skip _ h =>
    refine hkeep hr.outside rfl fun hn => ?_
    rw [skipped_eq_false (hasPlainCode_of_startsProcedure (exists_headerAt? hl hn).1)] at h
    cases h
  | @attributeRead whole extra _ ha =>
    refine ⟨hr.outside, fun o ho i hlow hhigh hi => ?_⟩
    have hat : f.attributeAt? n = some (whole, n + extra) :=
      attributeAt?_eq_some_iff.2 ⟨extra, by rw [linesFrom_eq_cons hl, ha], rfl⟩
    rcases Nat.lt_trichotomy i n with h | rfl | h
    · exact hr.accounted o ho i hlow h hi
    · have hno := opensAttribute_eq_false_of_startsProcedure (exists_headerAt? hl hi).1
      rw [readAttribute?_of_not_opensAttribute hno] at ha
      cases ha
    · exact .inAttribute hat h (by omega)
  | signatureRead => exact covers_readProcedure hs hr
  | plain _ _ hh hp =>
    have hn : ¬ f.DeclaresProcedure n := by
      intro hn
      obtain ⟨found, hfound⟩ := (exists_headerAt? hl hn).2
      rw [hh] at hfound
      cases hfound
    cases hp with
    | body => exact hkeep hr.outside rfl hn
    | close => exact hkeep hr.outside rfl hn
    | header =>
      -- No line stands between a header and itself.
      refine ⟨hr.outside, fun o ho i hlow hhigh _ => ?_⟩
      cases ho
      exact absurd (Nat.lt_of_lt_of_le hlow (Nat.le_of_lt_succ hhigh)) (Nat.lt_irrefl n)
    | outside => exact hkeep hr.outside rfl hn
    | fragment => trivial

section Whole

variable (hs : s.procedureTypes = [])
  (hopen : ∀ line ∈ f.lines, ("/*" : Text).isPrefixOf (trim line) = false)
include hs hopen

theorem Reaches.covers {n : Nat} {r : Reading} (h : Reaches f s n r) : f.Covers r n := by
  induction h with
  | start => exact ⟨rfl, fun o ho => by cases ho⟩
  | @next n extra line r r' _ hl h ih =>
    have hstep := step_covers hs hl (hopen line (List.mem_of_getElem? hl)) ih
    rw [h] at hstep
    exact hstep

theorem accounted_of_object? {o : SourceObject} (h : f.object? s = some o) {p : Procedure}
    (hp : p ∈ o.procedures) {i : Nat} (hlow : o.line < i) (hhigh : i ≤ p.line)
    (hi : f.DeclaresProcedure i) : f.Accounted o.procedures i := by
  obtain ⟨r, hends, hresult⟩ := exists_ends_of_object? h
  obtain ⟨o', ho', rfl⟩ := Option.map_eq_some_iff.1 hresult
  -- The pass ends below all procedures.
  obtain ⟨n, horder, hcovers⟩ : ∃ n, o'.InOrder n ∧ f.Covers r n := by
    cases hends with
    | @exhausted n _ hr _ => exact ⟨n, hr.orderedAbove o' ho', hr.covers hs hopen⟩
    | @closed n line r _ hr hl h =>
      have hstep := step_orderedAbove (f := f) (s := s) line (f.linesFrom (n + 1)) hr.orderedAbove
      have hcover := step_covers hs hl (hopen line (List.mem_of_getElem? hl)) (hr.covers hs hopen)
      rw [h] at hstep hcover
      exact ⟨n + 1, hstep o' ho', hcover⟩
  have hlast := horder.line_le_stop p hp
  have hbelow := horder.stop_lt p hp
  exact hcovers.accounted o' ho' i hlow (by omega) hi

/-- **No declared procedure is lost.** In a file without block comments, and without an allow-list,
take any line below the header of the object and down to its last procedure that starts a procedure
and whose signature is a header. Exactly one procedure stands on that line, or the line belongs to
the signature of a procedure further up, or to an attribute of several lines. -/
theorem object?_accounted {o : SourceObject} (h : f.object? s = some o) {last : Procedure}
    (hlast : o.procedures.getLast? = some last) {i : Nat} (hlow : o.line < i)
    (hhigh : i ≤ last.line) (hstart : (f.line? i).any startsProcedure = true)
    (hread : (ProcedureHeader.read? (f.signatureAt i).1).isSome = true) :
    (∃ p, o.procedures.filter (fun p => decide (p.line = i)) = [p]) ∨
      (∃ p ∈ o.procedures, p.line < i ∧ i ≤ (f.signatureAt p.line).2) ∨
      ∃ first whole stop, f.attributeAt? first = some (whole, stop) ∧ first < i ∧ i ≤ stop := by
  have hmem := List.mem_of_getLast? hlast
  cases accounted_of_object? hs hopen h hmem hlow hhigh ⟨hstart, hread⟩ with
  | @declared p hp hi => exact Or.inl ⟨p, hi ▸ (inOrder_of_object? h).filter_line hp⟩
  | @inSignature p hp hi hi' =>
    have hread := readFrom_of_object? h
    obtain ⟨header, hrepeats⟩ := exists_repeats_of_readFrom (hread.procedures p hp)
    exact Or.inr (Or.inl ⟨p, hp, hi, by rwa [hrepeats.signature]⟩)
  | @inAttribute first stop whole ha hi hi' =>
    exact Or.inr (Or.inr ⟨first, whole, stop, ha, hi, hi'⟩)

end Whole

/-- A file in which two headers stand in an attribute and in a signature, and one signature is not
finished. -/
def nestedHeaders : SourceFile where
  path := ⟨"Tools.al"⟩
  lines := ["codeunit 1 Tools", "\x7b", "[Scope('OnPrem',", "procedure Hidden()", ")]",
    "procedure Open(", "procedure Inner()", ")", "procedure Half(", "begin", "procedure Close()",
    "\x7d"]

theorem object?_accounted_nestedHeaders :
    ∃ o, nestedHeaders.object? {} = some o ∧ o.procedures.map (·.line) = [5, 10] ∧
      ∀ i ∈ [3, 6, 10],
        (∃ p, o.procedures.filter (fun p => decide (p.line = i)) = [p]) ∨
          (∃ p ∈ o.procedures, p.line < i ∧ i ≤ (nestedHeaders.signatureAt p.line).2) ∨
          ∃ first whole stop,
            nestedHeaders.attributeAt? first = some (whole, stop) ∧ first < i ∧ i ≤ stop := by
  have hsome : ((nestedHeaders.object? {}).map fun o => (o.line, o.procedures.map (·.line))) =
      some (0, [5, 10]) := by
    decide +kernel
  have hfacts : ∀ i ∈ [3, 6, 10], 0 < i ∧ i ≤ 10 ∧
      (nestedHeaders.line? i).any startsProcedure = true ∧
      (ProcedureHeader.read? (nestedHeaders.signatureAt i).1).isSome = true := by
    decide +kernel
  obtain ⟨o, ho, heq⟩ := Option.map_eq_some_iff.1 hsome
  obtain ⟨hline, hlines⟩ := Prod.mk.inj heq
  have hten : o.procedures.getLast?.map (·.line) = some 10 := by
    rw [← List.getLast?_map, hlines]
    rfl
  obtain ⟨last, hlast, hline'⟩ := Option.map_eq_some_iff.1 hten
  refine ⟨o, ho, hlines, fun i hi => ?_⟩
  obtain ⟨hlow, hhigh, hstart, hread⟩ := hfacts i hi
  exact object?_accounted rfl (by decide +kernel) ho hlast (hline.symm ▸ hlow)
    (hline'.symm ▸ hhigh) hstart hread

end SourceFile

end DocAudit
