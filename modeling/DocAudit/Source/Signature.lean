import DocAudit.Source.Attribute
import DocAudit.Source.ProcedureHeader

/-!
# Signatures

A signature is a procedure header as it stands in a file, on one line or on several. Its lines are
put on one, without comments and with single spaces between them, until the parameters close.

* `readSignature`: the signature that opens on the first of some lines.
* `SourceFile.signatureAt`: the signature that opens on a line of a file.
-/

namespace DocAudit

/-- The most lines that may follow the first line of a signature. -/
def maxSignatureLines : Nat := 64

/-- Continue a signature over at most `allowance` further lines. It ends where its parameters
close, before the edge of a body, and where the lines end. The second part of the answer is how
many lines were taken. -/
def gatherSignature (t : Text) (allowance : Nat) (rest : List Text) : Text × Nat :=
  if parametersClosed t then (t, 0)
  else
    match allowance, rest with
    | n + 1, line :: others =>
      if isBlockBoundary line then (t, 0)
      else
        let (whole, extra) := gatherSignature (joinPiece t (codeOf line)) n others
        (whole, extra + 1)
    | _, _ => (t, 0)

/-- The signature that opens on the first of some lines, as one line, and how many lines it takes
beyond the first. -/
def readSignature : List Text → Text × Nat
  | [] => ([], 0)
  | line :: rest => gatherSignature (codeOf line) maxSignatureLines rest

/-- The signature that opens on line `first`, as one line, and the number of its last line. -/
def SourceFile.signatureAt (f : SourceFile) (first : Nat) : Text × Nat :=
  let (whole, extra) := readSignature (f.linesFrom first)
  (whole, first + extra)

theorem gatherSignature_extra_le (t : Text) (allowance : Nat) (rest : List Text) :
    (gatherSignature t allowance rest).2 ≤ allowance ∧
      (gatherSignature t allowance rest).2 ≤ rest.length := by
  induction rest generalizing t allowance with
  | nil => unfold gatherSignature; split <;> simp
  | cons line others ih =>
    unfold gatherSignature
    split
    · simp
    · cases allowance with
      | zero => simp
      | succ n =>
        simp only
        split
        · simp
        · have := ih (joinPiece t (codeOf line)) n
          simp only [List.length_cons]
          omega

end DocAudit
