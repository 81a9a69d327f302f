import DocAudit.Proofs.Model.Lookup
import DocAudit.Proofs.Reading.Pass
import DocAudit.Proofs.Source.Attribute

/-!
# Declarations stand in order

The pass meets the header of the object first and then its procedures, each below the one before
it. The invariant is `SourceObject.InOrder`, with the line the pass has come to as its bound.

* `Reaches.le_lineCount`: the pass never leaves the file.
* `Reaches.orderedAbove`: what has been met stands in order above the current line.
* `exists_procedures_of_readFrom`: what the pass still meets comes after, in the lines below.
* `object?_lookup`: hence looking a line up in the model of a file finds what is declared there.
-/

namespace DocAudit

namespace SourceObject

theorem InOrder.addProcedure {o : SourceObject} {n next : Nat} {p : Procedure} (h : o.InOrder n)
    (hline : p.line = n) (hstart : p.range.start.line = n) (hstop : n ≤ p.range.stop.line)
    (hnext : p.range.stop.line < next) : (o.addProcedure p).InOrder next := by
  have hmono := h.mono (show n ≤ next by omega)
  -- Each fact holds of the procedures met before and of the new one.
  have hforall {P : Procedure → Prop} (ho : ∀ q ∈ o.procedures, P q) (hp : P p) :
      ∀ q ∈ (o.addProcedure p).procedures, P q := by
    intro q hq
    rcases List.mem_append.1 hq with hq | hq
    · exact ho q hq
    · rw [List.mem_singleton.1 hq]
      exact hp
  exact {
    header_lt := hmono.header_lt
    below_header := hforall hmono.below_header (by rw [hline]; exact h.header_lt)
    start_line := hforall hmono.start_line (by rw [hstart, hline])
    line_le_stop := hforall hmono.line_le_stop (by rw [hline]; exact hstop)
    stop_lt := hforall hmono.stop_lt hnext
    pairwise := by
      refine List.pairwise_append.2 ⟨h.pairwise, List.pairwise_singleton _ _, ?_⟩
      intro q hq p' hp'
      rw [List.mem_singleton.1 hp', hline]
      exact h.stop_lt q hq }

theorem inOrder_apply {o : SourceObject} {next : Nat} (properties : Properties)
    (h : o.InOrder next) : (properties.apply o).InOrder next :=
  ⟨h.header_lt, h.below_header, h.start_line, h.line_le_stop, h.stop_lt, h.pairwise⟩

end SourceObject

/-- The procedures met so far. -/
def Reading.procedures (r : Reading) : List Procedure := (r.object.map (·.procedures)).getD []

namespace SourceFile

variable {f : SourceFile} {s : Settings}

theorem headerAt?_le {line whole : Text} {rest : List Text} {header : ProcedureHeader}
    {extra : Nat} (h : headerAt? line rest = some (header, whole, extra)) :
    extra ≤ rest.length := by
  obtain ⟨-, hw, -⟩ := headerAt?_eq_some_iff.1 h
  have hle := (gatherSignature_extra_le (codeOf line) maxSignatureLines rest).2
  rw [readSignature] at hw
  rw [hw] at hle
  exact hle

/-! ## One step -/

theorem step_le_lineCount {n extra : Nat} {line : Text} {r r' : Reading}
    (hl : f.line? n = some line)
    (h : f.step s n line (f.linesFrom (n + 1)) r = .next r' extra) :
    n + 1 + extra ≤ f.lineCount := by
  have hn := line?_lt hl
  have hlen := f.length_linesFrom (n + 1)
  have heffect := effect_step (f := f) (s := s) n line (f.linesFrom (n + 1)) r
  rw [h] at heffect
  cases heffect with
  | comment | skip => omega
  | attributeRead _ ha =>
    have := (readAttribute?_le ha).2
    omega
  | signatureRead _ _ hh =>
    have := headerAt?_le hh
    omega
  | plain _ _ _ hp => cases hp <;> omega

/-- Whatever object is open at line `n`, its declarations stand in order above the line. -/
def OrderedAbove (r : Reading) (n : Nat) : Prop := ∀ o, r.object = some o → o.InOrder n

theorem orderedAbove_readProcedure {n extra : Nat} {r : Reading} {whole : Text}
    {header : ProcedureHeader} (hr : OrderedAbove r n) :
    OrderedAbove (f.readProcedure s n (n + extra) whole header r) (n + 1 + extra) := by
  intro o ho
  simp only [readProcedure] at ho
  split at ho
  · obtain ⟨o', ho', rfl⟩ := Option.map_eq_some_iff.1 ho
    refine (hr o' ho').addProcedure rfl rfl (Nat.le_add_right n extra) ?_
    show n + extra < n + 1 + extra
    omega
  · exact (hr o ho).mono (by omega)

theorem orderedAbove_emptyObject {n : Nat} {r : Reading} {header : ObjectHeader}
    (hr : r.object = some (f.emptyObject n header)) : OrderedAbove r (n + 1) := by
  intro o ho
  rw [hr] at ho
  cases ho
  exact {
    header_lt := Nat.lt_succ_self n
    below_header := fun p hp => absurd hp List.not_mem_nil
    start_line := fun p hp => absurd hp List.not_mem_nil
    line_le_stop := fun p hp => absurd hp List.not_mem_nil
    stop_lt := fun p hp => absurd hp List.not_mem_nil
    pairwise := .nil }

/-- A line keeps the declarations in order, above the line it leads to. -/
theorem step_orderedAbove {n : Nat} (line : Text) (rest : List Text) {r : Reading}
    (hr : OrderedAbove r n) :
    match f.step s n line rest r with
    | .next r' extra => OrderedAbove r' (n + 1 + extra)
    | .done r' => OrderedAbove r' (n + 1)
    | .fragment => True := by
  have heffect := effect_step (f := f) (s := s) n line rest r
  generalize f.step s n line rest r = effect at heffect
  -- Lines that declare nothing leave the object as it is.
  have hkeep {m : Nat} (hm : n ≤ m) : OrderedAbove r m := fun o ho => (hr o ho).mono hm
  cases heffect with
  | comment => exact hkeep (by omega)
  | skip => exact hkeep (by omega)
  | attributeRead => exact hkeep (by omega)
  | signatureRead => exact orderedAbove_readProcedure hr
  | plain _ _ _ hp =>
    cases hp with
    | body => exact hkeep (by omega)
    | close => exact hkeep (by omega)
    | header => exact orderedAbove_emptyObject rfl
    | outside => exact hkeep (by omega)
    | fragment => trivial

/-- A line leaves the procedures met so far as they are, or adds one of its own. -/
theorem step_procedures (n : Nat) (line : Text) (rest : List Text) (r : Reading) :
    match f.step s n line rest r with
    | .next r' _ => r'.procedures = r.procedures ∨
        ∃ p : Procedure, p.line = n ∧ r'.procedures = r.procedures ++ [p]
    | .done r' => r'.procedures = r.procedures
    | .fragment => True := by
  have heffect := effect_step (f := f) (s := s) n line rest r
  generalize f.step s n line rest r = effect at heffect
  cases heffect with
  | comment => exact Or.inl rfl
  | skip => exact Or.inl rfl
  | attributeRead => exact Or.inl rfl
  | @signatureRead header whole extra =>
    simp only [readProcedure, Reading.procedures]
    split
    · cases r.object with
      | none => exact Or.inl rfl
      | some o => exact Or.inr ⟨_, rfl, rfl⟩
    · exact Or.inl rfl
  | plain _ _ _ hp =>
    cases hp with
    | body => exact Or.inl rfl
    | close => rfl
    | header ho =>
      refine Or.inl ?_
      rw [Reading.procedures, Reading.procedures, ho]
      rfl
    | outside => exact Or.inl rfl
    | fragment => trivial

/-! ## The whole pass -/

theorem Reaches.le_lineCount {n : Nat} {r : Reading} (h : Reaches f s n r) : n ≤ f.lineCount := by
  cases h with
  | start => exact Nat.zero_le _
  | next _ hl h => exact step_le_lineCount hl h

/-- **Wherever the pass stands, the declarations met so far stand in order above.** -/
theorem Reaches.orderedAbove {n : Nat} {r : Reading} (h : Reaches f s n r) :
    OrderedAbove r n := by
  induction h with
  | start => exact fun o ho => by cases ho
  | @next n extra line r r' _ _ h ih =>
    have hstep := step_orderedAbove (f := f) (s := s) line (f.linesFrom (n + 1)) ih
    rw [h] at hstep
    exact hstep

/-- **The pass only adds procedures**, each from the line it has come to or below. -/
theorem exists_procedures_of_readFrom {n : Nat} {r : Reading} {o : SourceObject}
    (h : f.readFrom s n (f.linesFrom n) r = some o) :
    ∃ later, o.procedures = r.procedures ++ later ∧ ∀ p ∈ later, n ≤ p.line := by
  have hresult {r : Reading} (hr : r.result = some o) : o.procedures = r.procedures := by
    obtain ⟨o', ho', rfl⟩ := Option.map_eq_some_iff.1 hr
    rw [Reading.procedures, ho']
    rfl
  -- Every step leaves fewer lines.
  induction hm : f.lineCount - n using Nat.strongRecOn generalizing n r with
  | ind m ih =>
    cases hl : f.line? n with
    | none =>
      rw [readFrom_of_none hl] at h
      exact ⟨[], by rw [hresult h, List.append_nil], fun p hp => absurd hp List.not_mem_nil⟩
    | some line =>
      have hn := line?_lt hl
      have hstep := step_procedures (f := f) (s := s) n line (f.linesFrom (n + 1)) r
      rw [readFrom_of_some hl] at h
      cases hs : f.step s n line (f.linesFrom (n + 1)) r with
      | next r' extra =>
        rw [hs] at h hstep
        obtain ⟨later, hlater, hle⟩ := ih _ (by omega) h rfl
        rcases hstep with hsame | ⟨p, hp, hadd⟩
        · refine ⟨later, by rw [hlater, hsame], fun q hq => ?_⟩
          have := hle q hq
          omega
        · refine ⟨p :: later, by rw [hlater, hadd, List.append_assoc]; rfl, fun q hq => ?_⟩
          rcases List.mem_cons.1 hq with rfl | hq
          · exact Nat.le_of_eq hp.symm
          · have := hle q hq
            omega
      | done r' =>
        rw [hs] at h hstep
        refine ⟨[], by rw [hresult h, hstep, List.append_nil], ?_⟩
        exact fun p hp => absurd hp List.not_mem_nil
      | fragment =>
        rw [hs] at h
        cases h

theorem inOrder_of_object? {o : SourceObject} (h : f.object? s = some o) :
    o.InOrder f.lineCount := by
  obtain ⟨r, hends, hresult⟩ := exists_ends_of_object? h
  obtain ⟨o', ho', rfl⟩ := Option.map_eq_some_iff.1 hresult
  refine SourceObject.inOrder_apply _ ?_
  cases hends with
  | exhausted hr _ => exact (hr.orderedAbove o' ho').mono hr.le_lineCount
  | @closed n line r _ hr hl h =>
    have hstep := step_orderedAbove (f := f) (s := s) line (f.linesFrom (n + 1)) hr.orderedAbove
    rw [h] at hstep
    exact (hstep o' ho').mono (line?_lt hl)

/-- **Order and lookup.** In the model of a file the header stands above all procedures, whose
signatures stand one below the other within the file. So a line belongs to one signature at most,
and looking a line up finds that signature, the header if the line is the header, and the first
procedure below. -/
theorem object?_lookup {o : SourceObject} (h : f.object? s = some o) :
    (∀ p ∈ o.procedures, o.line < p.line ∧ p.line = p.range.start.line ∧
      p.range.start.line ≤ p.range.stop.line ∧ p.range.stop.line < f.lineCount) ∧
    (o.procedures.Pairwise fun p q => p.line < q.line) ∧
    (o.procedures.Pairwise fun p q => p.range.stop.line < q.range.start.line) ∧
    ∀ n,
      o.nextProcedure? n = o.procedures.find? (fun p => decide (n < p.line)) ∧
      (o.procedures.Pairwise fun p q => ¬ (p.Spans n ∧ q.Spans n)) ∧
      (∀ p, o.procedureAt? n = some p ↔ p ∈ o.procedures ∧ p.Spans n) ∧
      (o.declarationAt? n = some (.object o) ↔ n = o.line) ∧
      (∀ p ∈ o.procedures, ¬ p.Spans o.line) := by
  have ho := inOrder_of_object? h
  refine ⟨fun p hp => ?_, ho.pairwise_line, ho.pairwise_range, fun n => ?_⟩
  · have hstart := ho.start_line p hp
    refine ⟨ho.below_header p hp, hstart.symm, ?_, ho.stop_lt p hp⟩
    rw [hstart]
    exact ho.line_le_stop p hp
  · exact ⟨ho.nextProcedure?_eq n, ho.pairwise_not_spans n, ho.procedureAt?_eq_some_iff n,
      SourceObject.InOrder.declarationAt?_eq_object_iff n, fun p hp => ho.not_spans_header hp⟩

/-- A file with two procedures, the second of which takes two lines. -/
def twoProcedures : SourceFile where
  path := ⟨"Tools.al"⟩
  lines := ["codeunit 1 Tools", "\x7b", "procedure Open()", "procedure Close(", ")", "\x7d"]

theorem object?_lookup_twoProcedures :
    ∃ o, twoProcedures.object? {} = some o ∧
      o.procedures.map (fun p => (p.line, p.range.stop.line)) = [(2, 2), (3, 4)] ∧
      ∀ n, o.nextProcedure? n = o.procedures.find? fun p => decide (n < p.line) := by
  have hsome : ((twoProcedures.object? {}).map fun o =>
      o.procedures.map fun p => (p.line, p.range.stop.line)) = some [(2, 2), (3, 4)] := by
    decide +kernel
  obtain ⟨o, ho, hlines⟩ := Option.map_eq_some_iff.1 hsome
  exact ⟨o, ho, hlines, fun n => ((object?_lookup ho).2.2.2 n).1⟩

end SourceFile

end DocAudit
