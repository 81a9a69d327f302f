import DocAudit.Proofs.Source.ProcedureHeader
import DocAudit.Source.Signature

/-!
# Signatures over several lines

How far the reader of signatures looks, and what it looks at.

* `gatherSignature_congr`: only the lines of a signature that closes matter.
-/

namespace DocAudit

/-! ## One line more -/

theorem gatherSignature_of_closed {t : Text} (h : parametersClosed t = true) (n : Nat)
    (rest : List Text) : gatherSignature t n rest = (t, 0) := by
  unfold gatherSignature
  rw [if_pos h]

theorem gatherSignature_nil (t : Text) (n : Nat) : gatherSignature t n [] = (t, 0) := by
  unfold gatherSignature
  rw [ite_eq_left_iff]
  intro _
  cases n <;> rfl

theorem gatherSignature_zero (t : Text) (rest : List Text) :
    gatherSignature t 0 rest = (t, 0) := by
  unfold gatherSignature
  rw [ite_eq_left_iff]
  intro _
  cases rest <;> rfl

theorem gatherSignature_of_boundary (t : Text) (n : Nat) {line : Text} {others : List Text}
    (h : isBlockBoundary line = true) : gatherSignature t n (line :: others) = (t, 0) := by
  unfold gatherSignature
  rw [ite_eq_left_iff]
  intro _
  cases n with
  | zero => rfl
  | succ n =>
    simp only
    rw [if_pos h]

theorem gatherSignature_cons {t line : Text} (hc : ¬ parametersClosed t = true)
    (hl : ¬ isBlockBoundary line = true) (n : Nat) (others : List Text) :
    gatherSignature t (n + 1) (line :: others) =
      ((gatherSignature (joinPiece t (codeOf line)) n others).1,
        (gatherSignature (joinPiece t (codeOf line)) n others).2 + 1) := by
  rw [gatherSignature, if_neg hc]
  simp only
  rw [if_neg hl]

/-! ## Locality -/

/-- Neither the lines after a signature that closes nor a larger allowance change it. -/
theorem gatherSignature_congr {t whole : Text} {n m extra : Nat} {rest rest' : List Text}
    (h : gatherSignature t n rest = (whole, extra)) (hc : parametersClosed whole = true)
    (hm : extra ≤ m) (heq : rest'.take extra = rest.take extra) :
    gatherSignature t m rest' = (whole, extra) := by
  induction rest generalizing t n m extra rest' with
  | nil =>
    rw [gatherSignature_nil] at h
    cases h
    exact gatherSignature_of_closed hc m rest'
  | cons line others ih =>
    by_cases ht : parametersClosed t = true
    · rw [gatherSignature_of_closed ht] at h
      cases h
      exact gatherSignature_of_closed hc m rest'
    · by_cases hl : isBlockBoundary line = true
      · rw [gatherSignature_of_boundary t n hl] at h
        cases h
        exact absurd hc ht
      · cases n with
        | zero =>
          rw [gatherSignature_zero] at h
          cases h
          exact absurd hc ht
        | succ n =>
          rw [gatherSignature_cons ht hl] at h
          obtain ⟨rfl, rfl⟩ := Prod.mk.injEq _ _ _ _ ▸ h
          obtain ⟨m, rfl⟩ := Nat.exists_eq_succ_of_ne_zero (by omega : m ≠ 0)
          cases rest' with
          | nil => cases heq
          | cons line' others' =>
            rw [List.take_succ_cons, List.take_succ_cons, List.cons.injEq] at heq
            obtain ⟨rfl, heq⟩ := heq
            rw [gatherSignature_cons ht hl, ih rfl (by omega) heq]

end DocAudit
