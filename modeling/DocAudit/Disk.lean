import DocAudit.Failure

/-!
# Disks

A disk is the content of a file system at one moment, without links: the files and directories by
the names that lead to them from the root, and the working directory.

* `Disk.locate?`: where a path leads.
* `Disk.read`: what reading a file yields.
* `Disk.filesBelow`: the files of a directory and all below it.
* `Disk.write`, `Disk.delete`: a disk with a change.
* `Disk.changedFiles`: the files in which two disks differ.
-/

namespace DocAudit

/-- The names that lead from the root of a disk to one of its entries. -/
abbrev Names := List Text

/-- What a disk holds under some names. -/
inductive Entry
  | file (content : ByteArray)
  | directory

/-- The content of a file system. -/
structure Disk where
  entries : List (Names × Entry) := []
  /-- The working directory, where paths start that are not absolute. -/
  working : Names := []

/-- What reading a file yields. -/
inductive Content
  | text (t : Text)
  | missing
  | unreadable (fault : ReadFault)
deriving DecidableEq, Repr

/-- The absolute path of some names. -/
def Names.path (names : Names) : Path := ⟨'/' :: List.intercalate "/" names⟩

/-- The path of some names below a directory. -/
def Names.relativePath (names : Names) : Path := ⟨List.intercalate "/" names⟩

namespace Disk

/-! ## Walking -/

/-- The entry under some names; the root is always there. -/
def entryAt? (d : Disk) (names : Names) : Option Entry :=
  if names = [] then some .directory else d.entries.lookup names

/-- Why a path leads nowhere. -/
inductive WalkFault
  | missing
  | notDirectory
deriving DecidableEq, Repr

/-- Follow the parts of a path from a place. Each part, an empty one too, is looked for in a
directory; `..` leads to the directory above. -/
def walk (d : Disk) (here : Names) : List Text → Except WalkFault Names
  | [] => if (d.entryAt? here).isSome then .ok here else .error .missing
  | part :: rest =>
    match d.entryAt? here with
    | none => .error .missing
    | some (.file _) => .error .notDirectory
    | some .directory =>
      if Path.idle part then d.walk here rest
      else if part = ['.', '.'] then d.walk here.dropLast rest
      else d.walk (here ++ [part]) rest

/-- Where a path leads. -/
def follow (d : Disk) (p : Path) : Except WalkFault Names :=
  if p.text = [] then .error .missing
  else if p.isAbsolute then d.walk [] (Path.segments (p.text.drop 1))
  else d.walk d.working (Path.segments p.text)

/-- Where a path leads; none if nowhere. -/
def locate? (d : Disk) (p : Path) : Option Names := (d.follow p).toOption

/-- What a path leads to. -/
def at? (d : Disk) (p : Path) : Option Entry := (d.locate? p).bind d.entryAt?

/-- Whether a path leads to a file. -/
def isFile (d : Disk) (p : Path) : Bool :=
  match d.at? p with
  | some (.file _) => true
  | _ => false

/-! ## Reading -/

/-- The content of an entry as text. -/
def contentOf : Entry → Content
  | .directory => .unreadable .isDirectory
  | .file bytes =>
    match String.fromUTF8? bytes with
    | some s => .text s.toList
    | none => .unreadable .notText

/-- What reading the file at a path yields. -/
def read (d : Disk) (p : Path) : Content :=
  match d.follow p with
  | .error .missing => .missing
  | .error .notDirectory => .unreadable .notDirectory
  | .ok names => (d.entryAt? names).elim .missing contentOf

/-- The names of a file below a directory, from there on. -/
def fileBelow? (directory : Names) (entry : Names × Entry) : Option Names :=
  match entry.2 with
  | .directory => none
  | .file _ => directory.isPrefixOf? entry.1

/-- The files below a directory, each by its names from there on. -/
def filesBelow (d : Disk) (directory : Names) : List Names :=
  d.entries.filterMap (fileBelow? directory)

/-! ## Changing -/

/-- The disk with an entry in place of whatever its names led to. -/
def put (d : Disk) (names : Names) (entry : Entry) : Disk :=
  { d with entries := d.entries.filter (·.1 != names) ++ [(names, entry)] }

/-- The disk with all directories on a way. -/
def makeDirectories (d : Disk) (names : Names) : Disk :=
  (List.range (names.length + 1)).foldl
    (fun d n => if (d.entryAt? (names.take n)).isSome then d else d.put (names.take n) .directory) d

/-- The disk with a file, and the directories on the way to it. -/
def write (d : Disk) (names : Names) (bytes : ByteArray) : Disk :=
  (d.makeDirectories names.dropLast).put names (.file bytes)

/-- The disk without a file, or without a directory and everything below it. -/
def delete (d : Disk) (names : Names) : Disk :=
  { d with entries := d.entries.filter fun entry => !names.isPrefixOf entry.1 }

/-! ## Comparing -/

/-- Whether two entries are files of the same content, or no files both. -/
def sameContent : Option Entry → Option Entry → Bool
  | some (.file a), some (.file b) => a == b
  | some (.file _), _ => false
  | _, some (.file _) => false
  | _, _ => true

/-- The files that one of two disks lacks or that differ between them. -/
def changedFiles (before after : Disk) : List Names :=
  ((before.entries ++ after.entries).map (·.1)).filter fun names =>
    !sameContent (before.entryAt? names) (after.entryAt? names)

end Disk

end DocAudit
