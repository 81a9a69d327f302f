import DocAudit.Path

/-!
# Failures

What can go wrong around an analysis: files, settings, and requests about lines that declare
nothing. Source text and documentation never fail; what does not parse is passed over.

* `Failure.message`: a failure in one sentence.
* `Failure.markdown`: a failure with a heading and, where there is one, a way to mend it.
* `emphasizeLine`: a line as a terminal shows it.
-/

namespace DocAudit

/-- Why a file could not be read. -/
inductive ReadFault
  | isDirectory
  | notDirectory
  | notText
  /-- Any other reason, in the words of the system. -/
  | other (reason : Text)
deriving DecidableEq, Repr

/-- The words for a fault. -/
def ReadFault.message : ReadFault → Text
  | .isDirectory => "Is a directory (os error 21)"
  | .notDirectory => "Not a directory (os error 20)"
  | .notText => "stream did not contain valid UTF-8"
  | .other reason => reason

/-- Why settings could not be read from a file that is there. -/
inductive SettingsFault
  /-- The file is no TOML. -/
  | malformed
  /-- A key that is no setting. -/
  | unknownKey (key : Text)
  /-- A value that its setting does not take. -/
  | badValue (key : Text)
deriving DecidableEq, Repr

/-- The words for a fault. -/
def SettingsFault.message : SettingsFault → Text
  | .malformed => "not a TOML document"
  | .unknownKey key => "unknown setting `" ++ key ++ "`"
  | .badValue key => "invalid value for `" ++ key ++ "`"

/-- What can go wrong. -/
inductive Failure
  | fileNotFound (path : Path)
  /-- A setting is out of range. -/
  | invalidConfig (reason : Text)
  | io (fault : ReadFault)
  /-- Nothing usable is declared on a line, counted from one. -/
  | noDeclaration (file : Path) (line : Nat)
  | settings (fault : SettingsFault)
  | watch (reason : Text)
  | workspaceNotFound (start : Path)
deriving DecidableEq, Repr

namespace Failure

/-- The failure in one sentence. -/
def message : Failure → Text
  | fileNotFound path => "file not found: " ++ path.text
  | invalidConfig reason => "invalid config: " ++ reason
  | io fault => "io: " ++ fault.message
  | noDeclaration file line => "no declaration at " ++ file.text ++ ":" ++ decimal line
  | settings fault => "toml deserialize: " ++ fault.message
  | watch reason => "watch: " ++ reason
  | workspaceNotFound start => "no workspace found above " ++ start.text

/-- A heading and what happened. -/
def block (heading body : Text) : Text := "# Error" ++ heading ++ "\n\n" ++ body ++ "\n"

/-- A heading, what happened, and how to mend it. -/
def blockWithFix (heading body fix : Text) : Text :=
  block heading body ++ "\n## Fix\n\n" ++ fix ++ "\n"

/-- The failure in markdown. -/
def markdown : Failure → Text
  | fileNotFound path => block ": File Not Found" ("`" ++ path.text ++ "` does not exist.")
  | invalidConfig reason =>
    blockWithFix ": Invalid Config" reason "Correct the value in `.aldoc.toml`."
  | io fault => block ": I/O" fault.message
  | noDeclaration file line =>
    blockWithFix ": No Declaration"
      ("Line " ++ decimal line ++ " of `" ++ file.text ++ "` is not an object or procedure header.")
      "Point at the header line itself, or at a `///` line directly above one."
  | settings fault =>
    blockWithFix ": Invalid TOML" fault.message
      "Correct `.aldoc.toml` at the workspace root, or delete it to use the defaults."
  | watch reason => block ": Watch Failed" reason
  | workspaceNotFound start =>
    blockWithFix ": Workspace Not Found"
      ("No `app.json` or `.aldoc.toml` in `" ++ start.text ++ "` or any parent directory.")
      ("Run aldoc from inside an app folder, or create an empty `.aldoc.toml` at its root:\n\n" ++
        "    touch .aldoc.toml")

end Failure

/-- A heading in bold, any other line as it is. -/
def emphasizeLine (line : Text) : Text :=
  if line.head? = some '#' then "\x1b[1m" ++ line ++ "\x1b[0m" else line

end DocAudit
