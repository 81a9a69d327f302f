import DocAudit.Text.Basic

/-!
# TOML documents

A TOML document is a tree of tables. Its lines build the tree in order: key-value pairs go into the
table of the last header, and no table or key may be defined twice.

* `Node`: values and tables.
* `Statement`, `buildTree?`: lines, and the tree that they build.

Floating-point numbers and dates are left out: no setting takes one, so a document that holds
one is refused whatever it says.
-/

namespace DocAudit.Toml

/-- How a table came to be, which decides what may still be added to it. -/
inductive TableKind
  /-- Written between braces: complete. -/
  | inlined
  /-- Defined by its own header. -/
  | header
  /-- Named on the way in a header: it may still get a header of its own. -/
  | implied
  /-- Named on the way in a dotted key: more dotted keys may add to it. -/
  | dotted
deriving DecidableEq, Repr

/-- A value or table of a document. -/
inductive Node
  | text (t : Text)
  | integer (n : Int)
  | boolean (b : Bool)
  | array (items : List Node)
  | table (kind : TableKind) (entries : List (Text × Node))
  /-- Tables that share a header in double brackets, in order. -/
  | tables (all : List (List (Text × Node)))
deriving Repr

/-- The members of a table. -/
abbrev Entries := List (Text × Node)

/-- The members with the one named `key` replaced, or added at the end. -/
def Entries.put (entries : Entries) (key : Text) (node : Node) : Entries :=
  match entries with
  | [] => [(key, node)]
  | (k, old) :: rest => if k = key then (k, node) :: rest else (k, old) :: Entries.put rest key node

/-- Change the table at the end of a path of headers. Tables on the way are made if they are
missing; of tables that share a header the last is meant. -/
def descend? (change : Entries → Option Entries) : List Text → Entries → Option Entries
  | [], entries => change entries
  | key :: path, entries =>
    match entries.lookup key with
    | none => (descend? change path []).map fun inner => Entries.put entries key (.table .implied inner)
    | some (.table kind inner) =>
      if kind = .inlined then none
      else
        (descend? change path inner).map fun inner => Entries.put entries key (.table kind inner)
    | some (.tables all) =>
      (descend? change path (all.getLast?.getD [])).map fun last =>
        Entries.put entries key (.tables (all.dropLast ++ [last]))
    | some _ => none

/-- Add a value under a dotted key. Only tables that dotted keys made may be added to. -/
def insertDotted? (node : Node) : List Text → Entries → Option Entries
  | [], _ => none
  | [key], entries => if (entries.lookup key).isSome then none else some (Entries.put entries key node)
  | key :: next :: path, entries =>
    match entries.lookup key with
    | none =>
      (insertDotted? node (next :: path) []).map fun inner =>
        Entries.put entries key (.table .dotted inner)
    | some (.table .dotted inner) =>
      (insertDotted? node (next :: path) inner).map fun inner =>
        Entries.put entries key (.table .dotted inner)
    | some (.table .implied inner) =>
      if path = [] then none
      else
        (insertDotted? node (next :: path) inner).map fun inner =>
          Entries.put entries key (.table .implied inner)
    | some (.tables all) =>
      if path = [] then none
      else
        (insertDotted? node (next :: path) (all.getLast?.getD [])).map fun last =>
          Entries.put entries key (.tables (all.dropLast ++ [last]))
    | some _ => none

/-- Define a table by its header. -/
def openTable? (key : Text) (entries : Entries) : Option Entries :=
  match entries.lookup key with
  | none => some (Entries.put entries key (.table .header []))
  | some (.table .implied inner) => some (Entries.put entries key (.table .header inner))
  | some _ => none

/-- Add one more table under a header in double brackets. -/
def openNext? (key : Text) (entries : Entries) : Option Entries :=
  match entries.lookup key with
  | none => some (Entries.put entries key (.tables [[]]))
  | some (.tables all) => some (Entries.put entries key (.tables (all ++ [[]])))
  | some _ => none

/-- A line of a document that says something. -/
inductive Statement
  | pair (path : List Text) (value : Node)
  | header (path : List Text)
  | nextHeader (path : List Text)
deriving Repr

/-- Open a table at the end of a path. -/
def openAt? (openLast? : Text → Entries → Option Entries) (path : List Text) (root : Entries) :
    Option Entries :=
  path.getLast?.bind fun key => descend? (openLast? key) path.dropLast root

/-- The tree after some lines, when pairs go into the table at `current`. -/
def buildFrom? (current : List Text) (root : Entries) : List Statement → Option Entries
  | [] => some root
  | .pair path value :: rest => do
    buildFrom? current (← descend? (insertDotted? value path) current root) rest
  | .header path :: rest => do buildFrom? path (← openAt? openTable? path root) rest
  | .nextHeader path :: rest => do buildFrom? path (← openAt? openNext? path root) rest

/-- The tree that the lines of a document build; none if something is defined twice. -/
def buildTree? (statements : List Statement) : Option Entries := buildFrom? [] [] statements

end DocAudit.Toml
