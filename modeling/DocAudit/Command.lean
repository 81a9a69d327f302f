import DocAudit.Report.Listing
import DocAudit.Skeleton
import DocAudit.Workspace

/-!
# Commands

What the program does on request. A command reads a disk, prints, and ends with an exit code or a
failure. Lines and columns in requests are counted from one.

* `Answer`: what a command prints and how it ends.
* `Command.check`, `Command.definition`, `Command.hover`, `Command.show`, `Command.synth`: the
  commands that end by themselves.
* `Command.watchStart`: the first round of watching a workspace.
-/

namespace DocAudit

/-- What a command prints, and how it ends. -/
structure Answer where
  stdout : Text := []
  stderr : Text := []
  result : Except Failure Nat

/-- A command that prints nothing and fails. -/
def Answer.failed (failure : Failure) : Answer := { result := .error failure }

/-- The answer to what was looked up, or a failure to find it. -/
def Answer.of {α : Type} (found : Except Failure α) (answer : α → Answer) : Answer :=
  match found with
  | .ok a => answer a
  | .error failure => .failed failure

/-- What `check` says about its findings on the side. -/
def checkSummary (w : Workspace) (scan : Scan) (findings : List Finding) : Text :=
  let files := (distinctRuns (findings.map (·.file))).length
  (if scan.cache.isEmpty then "No objects found under " ++ w.root.text ++ "\n" else []) ++
    if findings.isEmpty then "All " ++ decimal scan.report.built ++ " objects documented\n"
    else
      decimal findings.length ++ " findings in " ++ decimal files ++ " files (" ++
        decimal scan.report.built ++ " objects scanned)\n"
where
  /-- The first path of each run of the same path. -/
  distinctRuns : List Path → List Path
    | [] => []
    | [p] => [p]
    | p :: q :: rest => if p.same q then distinctRuns (p :: rest) else p :: distinctRuns (q :: rest)

namespace Command

/-- The workspace around the working directory. -/
def workspace (d : Disk) : Except Failure Workspace := do
  Workspace.load d (← findRoot d (Names.path d.working))

/-- All findings of the workspace. Ends with one if there are any. -/
def check (d : Disk) (format : Format) : Answer :=
  .of (workspace d) fun w =>
    let scan := w.scanAll d
    let findings := scan.cache.evaluate w.config.settings
    { stdout := report format findings
      stderr := checkSummary w scan findings
      result := .ok (if findings.isEmpty then 0 else 1) }

/-! ## One file -/

/-- A file in its workspace. -/
structure Located where
  workspace : Workspace
  /-- The path of the file from the root on. -/
  relative : Path

/-- The file at a path, with the workspace around it. -/
def locate (d : Disk) (file : Path) : Except Failure Located := do
  match d.locate? file with
  | none => .error (.fileNotFound file)
  | some names =>
    let root ← findRoot d (Names.path names.dropLast)
    let workspace ← Workspace.load d root
    return { workspace, relative := (root.relativeTo? names.path).getD names.path }

/-- The lines of the file. -/
def Located.source (l : Located) (d : Disk) : Except Failure SourceFile :=
  readSource d l.workspace.root l.relative

/-- The object that the file declares, if any. -/
def Located.object? (l : Located) (d : Disk) : Except Failure (Option SourceObject) :=
  analyze d l.workspace.root l.relative l.workspace.config.settings

/-- The object that the file declares; without one, nothing is declared on any line. -/
def Located.object (l : Located) (d : Disk) (line : Nat) : Except Failure SourceObject := do
  match ← l.object? d with
  | some o => return o
  | none => .error (.noDeclaration l.relative line)

/-- What a procedure inherits from the interfaces of the workspace. The workspace is only scanned
if the documentation mentions inheritance at all. -/
def Located.inherited? (l : Located) (d : Disk) (o : SourceObject) (p : Procedure) :
    Option Cache.Inherited :=
  if Text.has "inheritdoc" (Documentation.raw p.documentation) then
    (l.workspace.scanAll d).cache.inherited? o p
  else none

/-- The model of a file, as an outline or as JSON. -/
def «show» (d : Disk) (file : Path) (asJson : Bool) : Answer :=
  .of (do let l ← locate d file; return (l, ← l.object? d)) fun (l, found) =>
    match found with
    | none => { stderr := "`" ++ l.relative.text ++ "` declares no object.\n", result := .ok 1 }
    | some o =>
      { stdout := if asJson then Json.pretty 0 o.json ++ "\n" else o.outline, result := .ok 0 }

/-! ## One line -/

/-- The procedure whose signature a line belongs to, or else, on a structured comment, the next
one below it. -/
def procedureFor? (f : SourceFile) (o : SourceObject) (index : Nat) : Option Procedure :=
  (o.procedureAt? index).or
    (if (f.line? index).any isStructuredComment then o.nextProcedure? index else none)

/-- The place that a procedure inherits its documentation from. -/
def definition (d : Disk) (file : Path) (line : Nat) : Answer :=
  .of (do
    let l ← locate d file
    let o ← l.object d line
    let f ← l.source d
    match procedureFor? f o (line - 1) with
    | some p => return (l, o, p)
    | none => .error (.noDeclaration l.relative line)) fun (l, o, p) =>
      match l.inherited? d o p with
      | some i =>
        { stdout := (l.workspace.root.join i.file).text ++ ":" ++ decimal (i.line + 1) ++ "\n"
          result := .ok 0 }
      | none =>
        { stderr := "`" ++ p.name ++ "` does not inherit documentation from a known interface.\n"
          result := .ok 1 }

/-- The line that says where documentation was inherited from. -/
def inheritedNote (i : Cache.Inherited) : Text :=
  "<!-- inherited from " ++ i.object ++ "." ++ i.procedure ++ " (" ++ i.file.text ++ ":" ++
    decimal (i.line + 1) ++ ") -->\n"

/-- What a declaration inherits; an object inherits nothing. -/
def Located.inheritedBy? (l : Located) (d : Disk) (o : SourceObject) :
    Declaration → Option Cache.Inherited
  | .object _ => none
  | .procedure p => l.inherited? d o p

/-- The documentation of the declaration on a line. -/
def hover (d : Disk) (file : Path) (line : Nat) : Answer :=
  .of (do
    let l ← locate d file
    let o ← l.object d line
    match o.declarationAt? (line - 1) with
    | some declared => return (l, o, declared)
    | none => .error (.noDeclaration l.relative line)) fun (l, o, declared) =>
      match l.inheritedBy? d o declared with
      | some i => { stdout := inheritedNote i ++ i.documentation ++ "\n", result := .ok 0 }
      | none =>
        match declared.documentation with
        | some raw => { stdout := raw ++ "\n", result := .ok 0 }
        | none => { stderr := "No documentation.\n", result := .ok 1 }

/-- The lines of the skeleton for a line: the one that belongs below a bare comment marker, or else
the one for the header on the line itself. -/
def skeletonLines? (f : SourceFile) (index : Nat) : Option (List Text) :=
  match f.skeletonAt? index with
  | some snippet => some [snippet.text]
  | none => do
    let line ← f.line? index
    let header ← Header.read? (← f.logicalLine? index)
    return indented (indentOf line) header.skeleton

/-- The skeleton of the documentation of the declaration at a line. -/
def synth (d : Disk) (file : Path) (line : Nat) : Answer :=
  .of (do
    let l ← locate d file
    match skeletonLines? (← l.source d) (line - 1) with
    | some ls => return ls
    | none => .error (.noDeclaration l.relative line)) fun ls =>
      { stdout := printLines ls, result := .ok 0 }

/-! ## Watching -/

/-- A workspace under watch: its cache, the format of reports, and the exit code so far. -/
structure Watch where
  workspace : Workspace
  cache : Cache
  format : Format
  exitCode : Nat

/-- The first round: a check of the whole workspace. -/
def watchStart (d : Disk) (format : Format) : Except Failure (Watch × Text) := do
  let w ← workspace d
  let cache := (w.scanAll d).cache
  let findings := cache.evaluate w.config.settings
  let exitCode := if findings.isEmpty then 0 else 1
  return ({ workspace := w, cache, format, exitCode }, report format findings)

/-- What is said before the wait for changes. -/
def Watch.banner (w : Watch) : Text :=
  "watch: monitoring " ++ decimal w.cache.size ++ " objects under " ++ w.workspace.root.text ++
    ", press Ctrl+C to stop\n"

/-- The source files that have changed between two moments, in order. -/
def changedSources (before after : Disk) : List Path :=
  pathSet (((before.changedFiles after).map Names.path).filter isSourcePath)

/-- What is said before changed files are read again. -/
def changeNotice (changed : List Path) : Text :=
  "watch: " ++ decimal changed.length ++ " files changed, re-checking...\n"

/-- A later round: changed files read again, with the report on them. -/
def Watch.next (w : Watch) (d : Disk) (changed : List Path) : Watch × Text :=
  let (cache, findings) := w.workspace.recheck d w.cache changed
  ({ w with cache, exitCode := if findings.isEmpty then 0 else 1 }, report w.format findings)

end Command

end DocAudit
