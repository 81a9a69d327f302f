import DocAudit.Cache
import DocAudit.Config
import DocAudit.Disk

/-!
# Workspaces

A workspace is a directory with a manifest or a configuration. Its source files are read in batches
into a cache, and one at a time when they change.

* `findRoot`: the workspace around a place.
* `Workspace.sources`: the source files, in order.
* `Workspace.scan`: all files read into a cache.
* `Workspace.refresh`: one file read again.
* `Workspace.recheck`: some changed files read again, and their findings.
-/

namespace DocAudit

/-- The file that marks an app. -/
def manifestName : Path := ⟨"app.json"⟩

/-- The file that holds the configuration. -/
def configName : Path := ⟨".aldoc.toml"⟩

/-- The ending of source files. -/
def sourceEnding : Text := "al"

/-- Whether a path is one of a source file. -/
def isSourcePath (p : Path) : Bool := p.extension?.any (sameWord sourceEnding)

/-- Whether a directory is the root of a workspace. -/
def isRoot (d : Disk) (directory : Path) : Bool :=
  d.isFile (directory.join manifestName) || d.isFile (directory.join configName)

/-- The nearest root of a workspace from a place upwards. -/
def findRoot (d : Disk) (start : Path) : Except Failure Path :=
  match start.ancestors.find? (isRoot d) with
  | some root => .ok root
  | none => .error (.workspaceNotFound start)

/-- The configuration of the workspace at `root`, which is the default without a file for it. -/
def Config.load (d : Disk) (root : Path) : Except Failure Config :=
  match d.read (root.join configName) with
  | .missing => .ok {}
  | .unreadable fault => .error (.io fault)
  | .text t => Config.parse t

/-- A workspace: its root and its configuration. -/
structure Workspace where
  root : Path
  config : Config
deriving DecidableEq, Repr

/-- The workspace at a root. -/
def Workspace.load (d : Disk) (root : Path) : Except Failure Workspace :=
  (Config.load d root).map fun config => { root, config }

/-- The file at `relative` below a root; `relative` identifies it. -/
def readSource (d : Disk) (root relative : Path) : Except Failure SourceFile :=
  match d.read (root.join relative) with
  | .missing => .error (.fileNotFound (root.join relative))
  | .unreadable fault => .error (.io fault)
  | .text t => .ok (.ofText relative t)

/-- The object that the file at `relative` declares, if any. -/
def analyze (d : Disk) (root relative : Path) (s : Settings) :
    Except Failure (Option SourceObject) :=
  (readSource d root relative).map (·.object? s)

/-! ## Scanning -/

/-- What a scan has met. -/
structure ScanReport where
  /-- Files that declare an object. -/
  built : Nat := 0
  /-- The scan stopped before its last batch. -/
  cancelled : Bool := false
  /-- Files that could not be read. -/
  skipped : Nat := 0
  /-- Files that declare none. -/
  withoutObject : Nat := 0
deriving DecidableEq, Repr

/-- A scan under way: the cache so far, and what has been met. -/
structure Scan where
  cache : Cache
  report : ScanReport := {}
deriving DecidableEq, Repr

/-- The scan after one more file. A file that cannot be read leaves its entry as it was. -/
def Scan.add (scan : Scan) (path : Path) : Except Failure (Option SourceObject) → Scan
  | .ok (some o) =>
    { cache := scan.cache.insert o, report := { scan.report with built := scan.report.built + 1 } }
  | .ok none =>
    { cache := scan.cache.remove path
      report := { scan.report with withoutObject := scan.report.withoutObject + 1 } }
  | .error _ => { scan with report := { scan.report with skipped := scan.report.skipped + 1 } }

/-- A list in parts of `size`, the last one possibly shorter; a size of zero counts as one. -/
def batches {α : Type} (size : Nat) (xs : List α) : List (List α) :=
  match xs with
  | [] => []
  | x :: rest => (x :: rest.take (size - 1)) :: batches size (rest.drop (size - 1))
termination_by xs.length

theorem flatten_batches {α : Type} (size : Nat) (xs : List α) : (batches size xs).flatten = xs := by
  fun_induction batches size xs with
  | case1 => rfl
  | case2 x rest ih => simp [ih]

namespace Workspace

/-- Whether a file, by its names from the root on, is a source to scan. -/
def isSource (w : Workspace) (names : Names) : Bool :=
  names.all (fun name => name.head? != some '.') && isSourcePath names.relativePath &&
    w.config.accepts names.relativePath.text

/-- The source files to scan, by their paths from the root on, in order. -/
def sources (w : Workspace) (d : Disk) : List Path :=
  match d.locate? w.root with
  | none => []
  | some root =>
    (((d.filesBelow root).filter w.isSource).map Names.relativePath).mergeSort
      fun p q => !q.before p

/-- The scan after some files, one by one. -/
def scanFiles (w : Workspace) (d : Disk) (scan : Scan) (paths : List Path) : Scan :=
  paths.foldl (fun scan path => scan.add path (analyze d w.root path w.config.settings)) scan

/-- The scan after some batches, the next of which has number `k`. Before each batch `cancelled`
says whether to stop. -/
def scanBatches (w : Workspace) (d : Disk) (cancelled : Nat → Bool) (k : Nat) (scan : Scan) :
    List (List Path) → Scan
  | [] => scan
  | batch :: rest =>
    if cancelled k then { scan with report := { scan.report with cancelled := true } }
    else w.scanBatches d cancelled (k + 1) (w.scanFiles d scan batch) rest

/-- All source files read into a cache, in batches, unless the scan is cancelled. -/
def scan (w : Workspace) (d : Disk) (cancelled : Nat → Bool) (c : Cache) : Scan :=
  w.scanBatches d cancelled 0 { cache := c } (batches w.config.batchSize (w.sources d))

/-- All source files read into a new cache. -/
def scanAll (w : Workspace) (d : Disk) : Scan := w.scan d (fun _ => false) {}

/-! ## Changes -/

/-- The cache with one file read again. A file that is gone loses its entry; one that cannot be read
keeps it, and the failure is reported. -/
def refresh (w : Workspace) (d : Disk) (c : Cache) (path : Path) : Except Failure Cache :=
  match analyze d w.root path w.config.settings with
  | .ok o => .ok (c.replace path o)
  | .error (.fileNotFound _) => .ok (c.remove path)
  | .error failure => .error failure

/-- The cache with a changed file read again, and the findings of that file. Files that are not
scanned, and those that cannot be read, are passed over. -/
def recheckFile (w : Workspace) (d : Disk) (c : Cache) (changed : Path) : Cache × List Finding :=
  let path := (Path.relativeTo? w.root changed).getD changed
  if w.config.accepts path.text then
    match w.refresh d c path with
    | .ok c => (c, ((c.get? path).map (·.evaluate w.config.settings)).getD [])
    | .error _ => (c, [])
  else (c, [])

/-- The cache with some changed files read again in order, and their findings. -/
def recheck (w : Workspace) (d : Disk) (c : Cache) : List Path → Cache × List Finding
  | [] => (c, [])
  | changed :: rest =>
    let (c, first) := w.recheckFile d c changed
    let (c, others) := w.recheck d c rest
    (c, first ++ others)

end Workspace

/-- A path added to paths in order, unless the same one is there already. -/
def insertPath (p : Path) : List Path → List Path
  | [] => [p]
  | q :: rest =>
    if q.same p then q :: rest else if p.before q then p :: q :: rest else q :: insertPath p rest

/-- Paths in order, each once and as first written. -/
def pathSet (paths : List Path) : List Path := paths.foldl (fun set p => insertPath p set) []

end DocAudit
