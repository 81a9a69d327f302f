import DocAudit.Text.Lines
import DocAudit.Path

/-!
# Source files

A source file is a path, which identifies it, and its lines, numbered from zero.

* `SourceFile.ofText`: the file that a text makes.
* `SourceFile.line?`, `SourceFile.lineCount`, `SourceFile.text`: its lines, their number, and all of
  them in one text.
-/

namespace DocAudit

/-- A file in lines. -/
structure SourceFile where
  path : Path
  lines : List Text
deriving DecidableEq, Repr

namespace SourceFile

/-- The mark some editors write before a text. -/
def byteOrderMark : Char := '\ufeff'

/-- The text without a byte order mark at its start. -/
def dropMark : Text → Text
  | [] => []
  | c :: rest => if c = byteOrderMark then rest else c :: rest

/-- The file at `path` that holds `text`. -/
def ofText (path : Path) (text : Text) : SourceFile := ⟨path, DocAudit.lines (dropMark text)⟩

/-- The line with a number. -/
def line? (f : SourceFile) (n : Nat) : Option Text := f.lines[n]?

/-- How many lines there are. -/
def lineCount (f : SourceFile) : Nat := f.lines.length

/-- The lines from a number on. -/
def linesFrom (f : SourceFile) (n : Nat) : List Text := f.lines.drop n

/-- The whole text, lines joined by line feeds. -/
def text (f : SourceFile) : Text := joinLines f.lines

theorem line?_isSome_iff {f : SourceFile} {n : Nat} : (f.line? n).isSome ↔ n < f.lineCount := by
  simp [line?, lineCount]

theorem head?_linesFrom (f : SourceFile) (n : Nat) : (f.linesFrom n).head? = f.line? n := by
  simp [linesFrom, line?]

theorem linesFrom_eq_cons {f : SourceFile} {n : Nat} {line : Text} (h : f.line? n = some line) :
    f.linesFrom n = line :: f.linesFrom (n + 1) := by
  obtain ⟨hn, rfl⟩ := List.getElem?_eq_some_iff.1 h
  exact List.drop_eq_getElem_cons hn

end SourceFile

end DocAudit
