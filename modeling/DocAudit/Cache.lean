import DocAudit.Finding.Evaluation

/-!
# The cache of objects

A cache holds at most one object for each path. Entries stand in the order of paths, so that every
walk over a cache meets them in that order.

* `Cache.insert`, `Cache.replace`, `Cache.remove`, `Cache.takeOut`, `Cache.get?`: the cache as a
  map.
* `Cache.find?`: an object by name and kind.
* `Cache.inherited?`: documentation that a procedure takes from an interface.
* `Cache.evaluate`: the findings of all objects.
-/

namespace DocAudit

/-- Objects by path, in the order of paths. -/
structure Cache where
  entries : List (Path × SourceObject) := []
deriving DecidableEq, Repr

namespace Cache

/-! ## The map -/

/-- Entries with one for a path. An entry that is replaced keeps its path as first written. -/
def insertEntry (path : Path) (o : SourceObject) :
    List (Path × SourceObject) → List (Path × SourceObject)
  | [] => [(path, o)]
  | (p, old) :: rest =>
    if p.same path then (p, o) :: rest
    else if path.before p then (path, o) :: (p, old) :: rest
    else (p, old) :: insertEntry path o rest

/-- The object of a path. -/
def get? (c : Cache) (path : Path) : Option SourceObject :=
  (c.entries.find? fun entry => entry.1.same path).map (·.2)

/-- The cache with an object under a path. -/
def insertAt (c : Cache) (path : Path) (o : SourceObject) : Cache := ⟨insertEntry path o c.entries⟩

/-- The cache with an object under its own path. -/
def insert (c : Cache) (o : SourceObject) : Cache := c.insertAt o.file o

/-- The cache without the object of a path. -/
def remove (c : Cache) (path : Path) : Cache := ⟨c.entries.filter fun entry => !entry.1.same path⟩

/-- The object of a path, taken out: what it was, if anything, and the cache without it. -/
def takeOut (c : Cache) (path : Path) : Option SourceObject × Cache :=
  let (taken, left) := c.entries.partition fun entry => entry.1.same path
  (taken.head?.map (·.2), ⟨left⟩)

/-- The cache with what a path holds now: an object, or none. -/
def replace (c : Cache) (path : Path) : Option SourceObject → Cache
  | some o => c.insertAt path o
  | none => c.remove path

/-- The paths that have an object, in order. -/
def paths (c : Cache) : List Path := c.entries.map (·.1)

/-- The objects in the order of their paths. -/
def objects (c : Cache) : List SourceObject := c.entries.map (·.2)

/-- How many objects there are. -/
def size (c : Cache) : Nat := c.entries.length

/-- Whether there are no objects. -/
def isEmpty (c : Cache) : Bool := c.entries.isEmpty

@[simp] theorem length_paths (c : Cache) : c.paths.length = c.size := by simp [paths, size]

/-! ## Inherited documentation -/

/-- An object by name, in any case, and kind. -/
def find? (c : Cache) (name : Text) (kind : ObjectKind) : Option SourceObject :=
  c.objects.find? fun o => o.kind == kind && sameWord o.name name

/-- Documentation that is taken from an interface. -/
structure Inherited where
  documentation : Text
  /-- The file of the interface. -/
  file : Path
  /-- The line of the procedure there. -/
  line : Nat
  /-- The name of the interface. -/
  object : Text
  /-- The name of the procedure there. -/
  procedure : Text
deriving DecidableEq, Repr

/-- An interface and one of its procedures, by name. -/
structure Source where
  interface : Text
  procedure : Text
deriving DecidableEq, Repr

/-- Where a procedure may inherit from: the reference of its tag, cut at the last point, or else the
interfaces of its owner, in order, with its own name. -/
def sources (owner : SourceObject) (p : Procedure) (tag : InheritTag) : List Source :=
  match tag.reference with
  | some reference =>
    match splitLast (· = '.') reference with
    | some (interface, procedure) => [⟨unquote interface, unquote procedure⟩]
    | none => []
  | none =>
    match owner.relation with
    | some ⟨.implementing, target⟩ =>
      (Relation.targets ⟨.implementing, target⟩).map fun interface => ⟨interface, p.name⟩
    | _ => []

/-- The documentation of the first documented procedure of a source. -/
def inheritedFrom? (c : Cache) (source : Source) : Option Inherited := do
  let o ← c.find? source.interface .interface
  let p ← o.procedures.find? fun p => sameWord p.name source.procedure && p.documentation.isSome
  return {
    documentation := Documentation.raw p.documentation
    file := o.file
    line := p.line
    object := o.name
    procedure := p.name }

/-- What a procedure inherits, from the first source that has it. -/
def inherited? (c : Cache) (owner : SourceObject) (p : Procedure) : Option Inherited := do
  let tag ← (Documentation.tags p.documentation).inherit
  (sources owner p tag).findSome? c.inheritedFrom?

/-! ## Findings -/

/-- The findings of all objects, in the order of paths. -/
def evaluate (c : Cache) (s : Settings) : List Finding := c.objects.flatMap (·.evaluate s)

end Cache

end DocAudit
