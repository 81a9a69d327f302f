import DocAudit.Text.Basic

/-!
# Blanks

A blank is a character of the Unicode property `White_Space`: twenty-five characters, of which
core's `Char.isWhitespace` holds four. Trimming drops blanks at the ends of a text.

* `isBlank`: the property.
* `trimLeft`, `trimRight`, `trim`: blanks dropped at the left, the right and both ends.
* `blankRun`: a text cut after its leading blanks.
-/

namespace DocAudit

/-- The Unicode property `White_Space`. -/
def isBlank (c : Char) : Bool :=
  let n := c.toNat
  (9 ≤ n && n ≤ 13) || n == 0x20 || n == 0x85 || n == 0xA0 || n == 0x1680 ||
    (0x2000 ≤ n && n ≤ 0x200A) || n == 0x2028 || n == 0x2029 || n == 0x202F || n == 0x205F ||
    n == 0x3000

/-- Without the blanks at the start. -/
def trimLeft (t : Text) : Text := t.dropWhile isBlank

/-- Without the blanks at the end: a blank stays only if something else follows it. -/
def trimRight : Text → Text
  | [] => []
  | c :: rest =>
    match trimRight rest with
    | [] => if isBlank c then [] else [c]
    | kept => c :: kept

/-- Without the blanks at either end. -/
def trim (t : Text) : Text := trimRight (trimLeft t)

/-- Only blanks, or nothing. -/
def allBlank (t : Text) : Bool := t.all isBlank

/-- The leading blanks. -/
def indentOf (t : Text) : Text := t.takeWhile isBlank

/-- At least one blank, with the text after the whole run of them. -/
def blankRun : Text → Option Text
  | [] => none
  | c :: rest => if isBlank c then some (trimLeft rest) else none

@[simp] theorem trimRight_nil : trimRight [] = [] := rfl

@[simp] theorem trimLeft_nil : trimLeft [] = [] := rfl

@[simp] theorem trim_nil : trim [] = [] := rfl

theorem indentOf_append_trimLeft (t : Text) : indentOf t ++ trimLeft t = t :=
  List.takeWhile_append_dropWhile

theorem trimRight_eq_nil_iff {t : Text} : trimRight t = [] ↔ allBlank t = true := by
  induction t with
  | nil => simp [allBlank]
  | cons c rest ih =>
    simp only [trimRight, allBlank, List.all_cons, Bool.and_eq_true] at *
    split
    · next h => simp [ih.1 h]
    · next h => simp [mt ih.2 h]

end DocAudit
