import DocAudit.CommandLine

/-!
# The program

The outer layer: it takes a snapshot of the part of the file system that a request is about, lets
`DocAudit.CommandLine` answer, and prints. Watching takes one snapshot after another.
-/

namespace DocAudit

/-- The names in a path of the system. -/
def namesIn (path : String) : Names := (Path.segments path.toList).filter (!·.isEmpty)

/-- The text of some names as the system takes it. -/
def systemPath (names : Names) : String := String.ofList (Names.path names).text

/-- A file of the system, if it is one. -/
def readEntry? (names : Names) : IO (Option (Names × Entry)) := do
  try
    return some (names, .file (← IO.FS.readBinFile (systemPath names)))
  catch _ => return none

/-- The marker files of a directory. -/
def readMarkers (directory : Names) : IO (List (Names × Entry)) := do
  let found ← [manifestName, configName].mapM fun p => readEntry? (directory ++ [p.text])
  return found.filterMap id

/-- The source files below a directory, hidden ones apart. -/
partial def readTree (directory : Names) : IO (List (Names × Entry)) := do
  let mut entries : List (Names × Entry) := []
  try
    for item in ← (← IO.FS.realPath (systemPath directory)).readDir do
      let names := directory ++ [item.fileName.toList]
      unless item.fileName.startsWith "." do
        match (← item.path.symlinkMetadata).type with
        | .dir => entries := entries ++ (names, .directory) :: (← readTree names)
        | .file =>
          if isSourcePath (Names.path names) then
            entries := entries ++ (← readEntry? names).toList
        | _ => pure ()
  catch _ => pure ()
  return entries

/-- A directory and all above it, with their marker files. -/
def readAncestors (directory : Names) : IO (List (Names × Entry)) := do
  let all := (List.range (directory.length + 1)).map directory.take
  let markers ← all.mapM readMarkers
  return (all.drop 1).map (·, .directory) ++ markers.flatten

/-- The disk around a place: its workspace, if it has one, and the file asked about. -/
def snapshot (working start : Names) (file : Option Names) : IO Disk := do
  let asked ← match file with
    | none => pure []
    | some names =>
      match ← readEntry? names with
      | some entry => pure [entry]
      | none => pure [(names, .directory)]
  let around : Disk := { entries := asked ++ (← readAncestors start), working }
  match findRoot around (Names.path start) with
  | .error _ => return around
  | .ok root => do
    let tree ← readTree (namesIn (String.ofList root.text))
    return { around with entries := around.entries ++ tree.filter (some ·.1 != file) }

/-- The names that a path of the system leads to. -/
def realNames? (path : String) : IO (Option Names) := do
  try
    return some (namesIn (← IO.FS.realPath path).toString)
  catch _ => return none

/-- Print a text. -/
def printText (t : Text) : IO Unit := do
  IO.print (String.ofList t)
  (← IO.getStdout).flush

/-- Print a text on the side. -/
def printAside (t : Text) : IO Unit := IO.eprint (String.ofList t)

/-- Wait for changes and report on them, until interrupted. -/
partial def watchLoop (w : Command.Watch) (before : Disk) : IO UInt32 := do
  IO.sleep 100
  let after ← snapshot before.working before.working none
  let changed := Command.changedSources before after
  if changed.isEmpty then watchLoop w after
  else
    printAside (Command.changeNotice changed)
    let (w, printed) := w.next after changed
    printText printed
    watchLoop w after

/-- Answer a request about a disk; watching goes on from there. -/
def answerRequest (d : Disk) (request : Invocation) : IO UInt32 := do
  let answer := request.run d
  printText answer.stdout
  printAside answer.allStderr
  match request with
  | .watch format =>
    match Command.watchStart d format with
    | .ok (w, _) => watchLoop w d
    | .error _ => return answer.exitCode.toUInt32
  | _ => return answer.exitCode.toUInt32

/-- Take a snapshot for a request and answer it. -/
def serve (request : Invocation) : IO UInt32 := do
  let working := (← realNames? ".").getD []
  let found ← match request.file? with
    | some file => realNames? (String.ofList file.text)
    | none => pure none
  let start := (found.map List.dropLast).getD working
  let d ← snapshot working start found
  answerRequest d ((found.map fun names => request.about (Names.path names)).getD request)

end DocAudit

/-- The program: wrong arguments end it with the code of a failure. -/
def main (arguments : List String) : IO UInt32 := do
  match DocAudit.Invocation.parse? (arguments.map String.toList) with
  | some request => DocAudit.serve request
  | none =>
    DocAudit.printAside DocAudit.usage
    return 2
