import DocAudit.Text.Basic

/-!
# Markup characters

The character classes of XML 1.0: which characters may occur at all, which separate attributes,
and which make up names.
-/

namespace DocAudit.Markup

/-- The blanks of markup, fewer than those of text. -/
def isSpace (c : Char) : Bool := c = ' ' || c = '\t' || c = '\n' || c = '\r'

/-- A character that may occur in markup. Surrogates are no characters in the first place. -/
def isAllowed (c : Char) : Bool :=
  if c.toNat < 0x20 then isSpace c else c.toNat != 0xFFFE && c.toNat != 0xFFFF

/-- Whether a code point lies in one of some closed ranges. -/
def inRanges (ranges : List (Nat × Nat)) (c : Char) : Bool :=
  ranges.any fun (low, high) => low ≤ c.toNat && c.toNat ≤ high

/-- The code points outside ASCII that may start a name. -/
def startRanges : List (Nat × Nat) :=
  [(0xC0, 0xD6), (0xD8, 0xF6), (0xF8, 0x2FF), (0x370, 0x37D), (0x37F, 0x1FFF), (0x200C, 0x200D),
    (0x2070, 0x218F), (0x2C00, 0x2FEF), (0x3001, 0xD7FF), (0xF900, 0xFDCF), (0xFDF0, 0xFFFD),
    (0x10000, 0xEFFFF)]

/-- The code points outside ASCII that may continue a name and not start one. -/
def continueRanges : List (Nat × Nat) := [(0xB7, 0xB7), (0x300, 0x36F), (0x203F, 0x2040)]

/-- A character that may start a part of a name. -/
def startsName (c : Char) : Bool := c.isAlpha || c = '_' || inRanges startRanges c

/-- A character that may continue a part of a name. -/
def continuesName (c : Char) : Bool :=
  startsName c || c.isDigit || c = '-' || c = '.' || inRanges continueRanges c

/-- Blanks of markup dropped at the start. -/
def skipSpace (t : Text) : Text := t.dropWhile isSpace

end DocAudit.Markup
