import DocAudit.Text.Blank

/-!
# Lines

A line feed ends a line, and a carriage return directly before it belongs to the line end. Text
after the last line feed is a line of its own unless it is empty. A carriage return anywhere
else is an ordinary character.

* `lines`: the lines without their ends.
* `joinLines`: the lines with single line feeds between them.
* `tidy`: every line trimmed, blank lines at both ends dropped.
-/

namespace DocAudit

/-- The lines of a text, without their ends. -/
def lines : Text → List Text
  | [] => []
  | c :: rest =>
    if c = '\n' then [] :: lines rest
    else if c = '\r' ∧ rest.head? = some '\n' then lines rest
    else extendFirst c (lines rest)

/-- The lines with single line feeds between them. -/
def joinLines (ls : List Text) : Text := List.intercalate ['\n'] ls

/-- Every line trimmed, and the blank lines at both ends dropped. -/
def tidy (t : Text) : Text :=
  let trimmed := ((lines t).map trim).dropWhile List.isEmpty
  joinLines (trimmed.reverse.dropWhile List.isEmpty).reverse

@[simp] theorem lines_nil : lines [] = [] := rfl

end DocAudit
