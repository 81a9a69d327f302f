import Mathlib.Tactic.ByContra
import DocAudit.Model.Object

/-!
# Lookup by line

Looking a line up is right when the declarations of an object stand one below the other.

* `SourceObject.InOrder`: they do, and all of them above a line.
* `firstFailing_eq_findIdx`: halving finds the first failure of a property that never holds again.
* `InOrder.procedureAt?_eq_some_iff`, `InOrder.nextProcedure?_eq`,
  `InOrder.declarationAt?_eq_object_iff`: what each lookup finds.
-/

namespace DocAudit

/-! ## Halving -/

/-- A property that never holds again after it has failed holds exactly before its first failure. -/
theorem holds_iff_lt_findIdx {α : Type} {p : α → Bool} {xs : List α}
    (h : xs.Pairwise fun a b => p b = true → p a = true) {i : Nat} {x : α}
    (hx : xs[i]? = some x) : p x = true ↔ i < xs.findIdx (!p ·) := by
  obtain ⟨hi, rfl⟩ := List.getElem?_eq_some_iff.1 hx
  constructor
  · intro hp
    by_contra hle
    have hle : xs.findIdx (!p ·) ≤ i := Nat.not_lt.1 hle
    have hlt : xs.findIdx (!p ·) < xs.length := Nat.lt_of_le_of_lt hle hi
    have hfail : (!p xs[xs.findIdx (!p ·)]) = true :=
      List.findIdx_getElem (p := (!p ·)) (w := hlt)
    rcases Nat.eq_or_lt_of_le hle with heq | hlt'
    · rw [getElem_congr_idx heq, hp] at hfail
      exact absurd hfail (by decide)
    · rw [List.pairwise_iff_getElem.1 h _ _ hlt hi hlt' hp] at hfail
      exact absurd hfail (by decide)
  · intro hlt
    simpa using List.not_of_lt_findIdx hlt

/-- **Halving finds the first failure.** -/
theorem firstFailing_eq_findIdx {α : Type} {p : α → Bool} {xs : List α}
    (h : xs.Pairwise fun a b => p b = true → p a = true) {low high : Nat}
    (hlow : low ≤ xs.findIdx (!p ·)) (hhigh : xs.findIdx (!p ·) ≤ high)
    (hlen : high ≤ xs.length) : firstFailing p xs low high = xs.findIdx (!p ·) := by
  fun_induction firstFailing p xs low high with
  | case1 low high hlt x hx hp ih =>
    have := (holds_iff_lt_findIdx h hx).1 hp
    exact ih this hhigh hlen
  | case2 low high hlt x hx hp ih =>
    have := mt (holds_iff_lt_findIdx h hx).2 hp
    exact ih hlow (by omega) (by omega)
  | case3 low high hlt hx =>
    have := List.getElem?_eq_none_iff.1 hx
    omega
  | case4 low high hlt => omega

/-! ## Declarations in order -/

/-- A line belongs to the signature of a procedure. -/
def Procedure.Spans (p : Procedure) (n : Nat) : Prop :=
  p.range.start.line ≤ n ∧ n ≤ p.range.stop.line

namespace SourceObject

/-- The declarations of an object stand one below the other, all above line `next`. -/
structure InOrder (o : SourceObject) (next : Nat) : Prop where
  header_lt : o.line < next
  below_header : ∀ p ∈ o.procedures, o.line < p.line
  start_line : ∀ p ∈ o.procedures, p.range.start.line = p.line
  line_le_stop : ∀ p ∈ o.procedures, p.line ≤ p.range.stop.line
  stop_lt : ∀ p ∈ o.procedures, p.range.stop.line < next
  pairwise : o.procedures.Pairwise fun p q => p.range.stop.line < q.line

namespace InOrder

variable {o : SourceObject} {next : Nat}

theorem mono (h : o.InOrder next) {next' : Nat} (hle : next ≤ next') : o.InOrder next' :=
  { h with
    header_lt := Nat.lt_of_lt_of_le h.header_lt hle
    stop_lt := fun p hp => Nat.lt_of_lt_of_le (h.stop_lt p hp) hle }

theorem pairwise_line (h : o.InOrder next) :
    o.procedures.Pairwise fun p q => p.line < q.line :=
  h.pairwise.imp_of_mem fun hp _ hpq => Nat.lt_of_le_of_lt (h.line_le_stop _ hp) hpq

theorem pairwise_range (h : o.InOrder next) :
    o.procedures.Pairwise fun p q => p.range.stop.line < q.range.start.line :=
  h.pairwise.imp_of_mem fun _ hq hpq => by rw [h.start_line _ hq]; exact hpq

theorem pairwise_not_spans (h : o.InOrder next) (n : Nat) :
    o.procedures.Pairwise fun p q => ¬ (p.Spans n ∧ q.Spans n) := by
  refine h.pairwise_range.imp fun hpq hs => ?_
  have h1 := hs.1.2
  have h2 := hs.2.1
  omega

theorem not_spans_header (h : o.InOrder next) {p : Procedure} (hp : p ∈ o.procedures) :
    ¬ p.Spans o.line := by
  intro hs
  have h1 := hs.1
  rw [h.start_line p hp] at h1
  have h2 := h.below_header p hp
  omega

/-- What is found on a line is the procedure whose signature the line belongs to. -/
theorem procedureAt?_eq_some_iff (h : o.InOrder next) (n : Nat) (p : Procedure) :
    o.procedureAt? n = some p ↔ p ∈ o.procedures ∧ p.Spans n := by
  constructor
  · intro hp
    have hs := List.find?_some hp
    rw [Bool.and_eq_true, decide_eq_true_eq, decide_eq_true_eq] at hs
    exact ⟨List.mem_of_find?_eq_some hp, hs⟩
  · rintro ⟨hp, hs⟩
    obtain ⟨before, after, heq⟩ := List.append_of_mem hp
    refine List.find?_eq_some_iff_append.2 ⟨?_, before, after, heq, fun q hq => ?_⟩
    · simp only [Bool.and_eq_true, decide_eq_true_eq]
      exact hs
    · have hpair := h.pairwise_not_spans n
      rw [heq] at hpair
      have hq' := (List.pairwise_append.1 hpair).2.2 q hq p List.mem_cons_self
      rw [Bool.not_eq_true', Bool.and_eq_false_iff, decide_eq_false_iff_not,
        decide_eq_false_iff_not]
      by_contra hc
      rw [not_or, Classical.not_not, Classical.not_not] at hc
      exact hq' ⟨hc, hs⟩

theorem nextProcedure?_eq (h : o.InOrder next) (n : Nat) :
    o.nextProcedure? n = o.procedures.find? fun p => decide (n < p.line) := by
  have hmono : o.procedures.Pairwise fun p q =>
      decide (q.line ≤ n) = true → decide (p.line ≤ n) = true := by
    refine h.pairwise_line.imp fun hpq hq => ?_
    rw [decide_eq_true_eq] at hq ⊢
    omega
  have hneg : (fun p : Procedure => !decide (p.line ≤ n)) = fun p => decide (n < p.line) := by
    funext p
    rw [← decide_not, decide_eq_decide, Nat.not_le]
  rw [nextProcedure?, firstFailing_eq_findIdx hmono (Nat.zero_le _) List.findIdx_le_length
    (Nat.le_refl _), hneg, List.find?_eq_getElem?_findIdx]

theorem declarationAt?_eq_object_iff (n : Nat) :
    o.declarationAt? n = some (.object o) ↔ n = o.line := by
  unfold declarationAt?
  by_cases hn : n = o.line
  · rw [if_pos hn]
    exact iff_of_true rfl hn
  · rw [if_neg hn]
    refine iff_of_false (fun hc => ?_) hn
    obtain ⟨p, -, hp⟩ := Option.map_eq_some_iff.1 hc
    cases hp

end InOrder

end SourceObject

end DocAudit
