import DocAudit.Text.Basic

/-!
# Paths

A path is printed as it was written, but compared by its components: repeated slashes, slashes
at the end and `.` inside a path do not count, while `.` at the start and every `..` do.

* `Path.components`: what a path is compared by.
* `Path.same`, `Path.before`: equality and order of paths.
* `Path.join`, `Path.parent?`, `Path.relativeTo?`: paths made from paths.
* `Path.extension?`: the end of the file name.
-/

namespace DocAudit

/-- One step of a path. -/
inductive Component
  /-- The slash at the start of an absolute path. -/
  | root
  /-- `.` at the start. -/
  | current
  /-- `..`. -/
  | parent
  | name (text : Text)
deriving DecidableEq, Repr

/-- Position of the kinds of component in the order of components. -/
def Component.rank : Component → Nat
  | .root => 0
  | .current => 1
  | .parent => 2
  | .name _ => 3

/-- Lexicographic order of texts by code point. -/
def Text.before : Text → Text → Bool
  | _, [] => false
  | [], _ :: _ => true
  | a :: s, b :: t => if a = b then Text.before s t else a.toNat < b.toNat

/-- Components in order: `/`, `.`, `..`, then names by code point. -/
def Component.before : Component → Component → Bool
  | .name a, .name b => Text.before a b
  | a, b => a.rank < b.rank

/-- Lexicographic order of component lists. -/
def componentsBefore : List Component → List Component → Bool
  | _, [] => false
  | [], _ :: _ => true
  | a :: s, b :: t => if a = b then componentsBefore s t else a.before b

/-- A path as written. -/
structure Path where
  text : Text
deriving DecidableEq, Repr

namespace Path

/-- The start of a path that is no name, and the text after it. -/
inductive Start
  | root
  | current
  | none
deriving DecidableEq, Repr

/-- The text of each start. -/
def Start.text : Start → Text
  | .root => "/"
  | .current => "."
  | .none => []

/-- The component of each start. -/
def Start.component? : Start → Option Component
  | .root => some .root
  | .current => some .current
  | .none => .none

/-- A path cut after its start. -/
def open? (p : Path) : Start × Text :=
  match p.text with
  | [] => (.none, [])
  | c :: rest =>
    if c = '/' then (.root, rest)
    else if c = '.' ∧ (rest = [] ∨ rest.head? = some '/') then (.current, rest)
    else (.none, c :: rest)

/-- The parts between slashes. -/
def segments (body : Text) : List Text := splitAll (· = '/') body

/-- Parts of a path that do not count. -/
def idle (segment : Text) : Bool := segment = [] || segment = ['.']

/-- The component that a part after the start stands for. -/
def componentOf? (segment : Text) : Option Component :=
  if idle segment then none
  else if segment = ['.', '.'] then some .parent
  else some (.name segment)

/-- What the path is compared by. -/
def components (p : Path) : List Component :=
  p.open?.1.component?.toList ++ (segments p.open?.2).filterMap componentOf?

/-- Two paths are the same when their components are. -/
def same (p q : Path) : Bool := p.components == q.components

/-- The order of paths. -/
def before (p q : Path) : Bool := componentsBefore p.components q.components

theorem same_iff {p q : Path} : p.same q = true ↔ p.components = q.components := by simp [same]

@[simp] theorem same_refl (p : Path) : p.same p = true := by simp [same]

/-- Whether the path starts at the root. -/
def isAbsolute (p : Path) : Bool := p.text.head? = some '/'

/-- `q` read from the directory `p`; an absolute `q` stands for itself. -/
def join (p q : Path) : Path :=
  if q.isAbsolute then q
  else if p.text = [] ∨ p.text.getLast? = some '/' then ⟨p.text ++ q.text⟩
  else ⟨p.text ++ '/' :: q.text⟩

/-- Parts with slashes between them, those that do not count dropped at the end. -/
def joinSegments (reversed : List Text) : Text :=
  List.intercalate ['/'] (reversed.dropWhile idle).reverse

/-- The path without its last component; none if there is nothing to drop but a root. -/
def parent? (p : Path) : Option Path :=
  let (start, body) := p.open?
  match (segments body).reverse.dropWhile idle with
  | _ :: before => some ⟨start.text ++ joinSegments before⟩
  | [] => if start = .current then some ⟨[]⟩ else none

/-- The path and all its parents, from the path itself upwards, `n` of them at most. -/
def ancestorsUpTo : Nat → Path → List Path
  | 0, _ => []
  | n + 1, p => p :: ((p.parent?.map (ancestorsUpTo n)).getD [])

/-- The path and all its parents, from the path itself upwards. Each parent has one component
less, so there are no more of them than components. -/
def ancestors (p : Path) : List Path := ancestorsUpTo (p.components.length + 1) p

/-- Drop parts up to and with the `n`-th that counts. -/
def dropCounting : Nat → List Text → List Text
  | 0, parts => parts
  | _ + 1, [] => []
  | n + 1, part :: rest => if idle part then dropCounting (n + 1) rest else dropCounting n rest

/-- The rest of the path below `base`; none if it is not below it. -/
def relativeTo? (base p : Path) : Option Path :=
  let (start, body) := p.open?
  match base.components with
  | [] => some ⟨start.text ++ joinSegments (segments body).reverse⟩
  | first :: _ =>
    if base.components.isPrefixOf p.components then
      let named := if first = .root ∨ first = .current then 1 else 0
      let rest := (dropCounting (base.components.length - named) (segments body)).dropWhile idle
      some ⟨joinSegments rest.reverse⟩
    else none

/-- The last component, if it is a name. -/
def fileName? (p : Path) : Option Text :=
  match p.components.getLast? with
  | some (.name text) => some text
  | _ => none

/-- What follows the last point of the file name; a point at its start does not count. -/
def extension? (p : Path) : Option Text := do
  let (stem, ending) ← splitLast (· = '.') (← p.fileName?)
  if stem.isEmpty then none else some ending

end Path

end DocAudit
