import DocAudit.Path
import Mathlib.Data.Char
import Mathlib.Data.List.Lex
import Mathlib.Data.Prod.Lex

/-!
# The order of paths

Paths are in order as their keys are, and keys are lists over a linear order. So what is true of any
linear order need not be proved of paths again.

* `Component.key`, `Path.key`: what a component and a path are ordered by.
* `Path.before_iff`, `Path.same_iff_key`: order and sameness of paths, in terms of keys.
* `Path.pairwise_before_mergeSort`: paths after sorting.
-/

namespace DocAudit

/-- Lists are compared at the first place where they differ. -/
theorem cons_lt_cons_iff_ite {α : Type} [LinearOrder α] {a b : α} {s t : List α} :
    a :: s < b :: t ↔ if a = b then s < t else a < b := by
  rw [List.cons_lt_cons_iff]
  by_cases hab : a = b
  · rw [if_pos hab]
    constructor
    · rintro (h | ⟨-, h⟩)
      · exact absurd hab h.ne
      · exact h
    · intro h
      exact Or.inr ⟨hab, h⟩
  · rw [if_neg hab]
    constructor
    · rintro (h | ⟨h, -⟩)
      · exact h
      · exact absurd h hab
    · intro h
      exact Or.inl h

theorem Text.before_iff {s t : Text} : Text.before s t = true ↔ s < t := by
  induction s generalizing t with
  | nil =>
    cases t with
    | nil => exact iff_of_false Bool.false_ne_true (lt_irrefl _)
    | cons b t => exact iff_of_true rfl (List.nil_lt_cons b t)
  | cons a s ih =>
    cases t with
    | nil => exact iff_of_false Bool.false_ne_true (List.not_lt_nil _)
    | cons b t =>
      rw [Text.before, cons_lt_cons_iff_ite]
      by_cases hab : a = b
      · rw [if_pos hab, if_pos hab, ih]
      · rw [if_neg hab, if_neg hab, decide_eq_true_iff]
        exact Iff.rfl

namespace Component

/-- The name of a component, empty if it is none. -/
def nameText : Component → Text
  | .name t => t
  | _ => []

/-- What a component is ordered by: its kind, and then its name. -/
def key (c : Component) : ℕ ×ₗ List Char := toLex (c.rank, c.nameText)

theorem key_injective : Function.Injective key := by
  intro a b h
  obtain ⟨hrank, hname⟩ := Prod.mk.inj (toLex.injective h)
  cases a <;> cases b <;> simp_all [rank, nameText]

theorem before_iff {a b : Component} : a.before b = true ↔ a.key < b.key := by
  rw [key, key, Prod.Lex.toLex_lt_toLex]
  cases a <;> cases b <;> simp [Component.before, Text.before_iff, rank, nameText]

end Component

theorem componentsBefore_iff {s t : List Component} :
    componentsBefore s t = true ↔ s.map Component.key < t.map Component.key := by
  induction s generalizing t with
  | nil =>
    cases t with
    | nil => exact iff_of_false Bool.false_ne_true (lt_irrefl _)
    | cons b t => exact iff_of_true rfl (List.nil_lt_cons _ _)
  | cons a s ih =>
    cases t with
    | nil => exact iff_of_false Bool.false_ne_true (List.not_lt_nil _)
    | cons b t =>
      have hkeys : a.key = b.key ↔ a = b := Component.key_injective.eq_iff
      rw [componentsBefore, List.map_cons, List.map_cons, cons_lt_cons_iff_ite]
      by_cases hab : a = b
      · rw [if_pos hab, if_pos (hkeys.2 hab), ih]
      · rw [if_neg hab, if_neg (mt hkeys.1 hab), Component.before_iff]

namespace Path

/-- What a path is ordered by. -/
def key (p : Path) : List (ℕ ×ₗ List Char) := p.components.map Component.key

theorem before_iff {p q : Path} : p.before q = true ↔ p.key < q.key := componentsBefore_iff

theorem same_iff_key {p q : Path} : p.same q = true ↔ p.key = q.key := by
  rw [same_iff, key, key, (List.map_injective_iff.2 Component.key_injective).eq_iff]

theorem not_before_iff {p q : Path} : (!q.before p) = true ↔ p.key ≤ q.key := by
  rw [Bool.not_eq_true', ← Bool.not_eq_true, before_iff, not_lt]

/-- **Different paths are sorted into strict order.** -/
theorem pairwise_before_mergeSort {paths : List Path}
    (h : paths.Pairwise fun p q => p.same q = false) :
    (paths.mergeSort fun p q => !q.before p).Pairwise fun p q => p.before q = true := by
  have hordered : (paths.mergeSort fun p q => !q.before p).Pairwise
      fun p q => (!q.before p) = true := by
    apply List.pairwise_mergeSort
    · intro p q r hpq hqr
      exact not_before_iff.2 ((not_before_iff.1 hpq).trans (not_before_iff.1 hqr))
    · intro p q
      rw [Bool.or_eq_true, not_before_iff, not_before_iff]
      exact le_total p.key q.key
  have hdistinct : (paths.mergeSort fun p q => !q.before p).Pairwise
      fun p q => p.same q = false := by
    refine ((List.mergeSort_perm paths _).pairwise_iff ?_).2 h
    intro p q hpq
    rw [← Bool.not_eq_true, same_iff_key] at hpq ⊢
    exact Ne.symm hpq
  refine (hordered.and hdistinct).imp ?_
  rintro p q ⟨hle, hne⟩
  rw [← Bool.not_eq_true, same_iff_key] at hne
  exact before_iff.2 (lt_of_le_of_ne (not_before_iff.1 hle) hne)

end Path

end DocAudit
