import DocAudit.Markup.Token

/-!
# Markup elements

Tokens make a tree when every start tag has its end tag. Only the elements at the top of the tree
are kept, each with the text of everything inside it and its place among the characters; what is
inside them is still checked: tags must match, attributes must differ, and namespace prefixes must
be declared.

* `Scope.enter?`: the namespaces visible inside an element.
* `elements?`: the elements at the top of a text.
-/

namespace DocAudit.Markup

/-! ## Namespaces -/

/-- The namespace of attributes and elements whose prefix is `xml`. -/
def xmlUri : Text := "http://www.w3.org/XML/1998/namespace"

/-- The namespace of declarations, which nothing may be bound to. -/
def declarationUri : Text := "http://www.w3.org/2000/xmlns/"

/-- The prefix of declarations, and the name of the default one. -/
def declarationWord : Text := "xmlns"

/-- The prefix that is always declared. -/
def xmlWord : Text := "xml"

/-- The namespaces that are declared at a point, nearest first: a prefix, empty for the default
namespace, and the name it stands for. -/
abbrev Scope := List (Text × Text)

/-- Whether an attribute declares a prefix. -/
def TagAttribute.declaresPrefix (a : TagAttribute) : Bool := a.name.space == declarationWord

/-- Whether an attribute declares the default namespace. -/
def TagAttribute.declaresDefault (a : TagAttribute) : Bool :=
  !a.declaresPrefix && a.name.name == declarationWord

/-- Whether an attribute is no declaration. -/
def TagAttribute.isOrdinary (a : TagAttribute) : Bool := !a.declaresPrefix && !a.declaresDefault

/-- Whether a declaration leaves the reserved namespaces alone. -/
def TagAttribute.allowedDeclaration (a : TagAttribute) : Bool :=
  a.value != declarationUri &&
    if a.declaresPrefix then (a.name.name == xmlWord) == (a.value == xmlUri)
    else a.value != xmlUri

/-- The declaration that an attribute adds to a scope. The prefix `xml` needs none. -/
def TagAttribute.declaration? (a : TagAttribute) : Option (Text × Text) :=
  if a.declaresPrefix then if a.value = xmlUri then none else some (a.name.name, a.value)
  else if a.declaresDefault then some ([], a.value)
  else none

/-- The namespace of an attribute: none without a prefix. A prefix that is not declared has no
meaning. -/
def Scope.resolve? (scope : Scope) (name : QualifiedName) : Option (Option Text) :=
  if name.space = [] then some none
  else if name.space = xmlWord then some (some xmlUri)
  else (scope.lookup name.space).map some

/-- Whether the members of a list differ from each other. -/
def allDistinct {α : Type} [BEq α] : List α → Bool
  | [] => true
  | a :: rest => !rest.contains a && allDistinct rest

/-- The scope inside an element; none if its tag breaks a rule of namespaces. -/
def Scope.enter? (scope : Scope) (name : QualifiedName) (attributes : List TagAttribute) :
    Option Scope := do
  let declarations := attributes.filter (!·.isOrdinary)
  let added := declarations.filterMap TagAttribute.declaration?
  let inner := added ++ scope
  let ordinary ← (attributes.filter (·.isOrdinary)).mapM fun a =>
    (Scope.resolve? inner a.name).map fun namespaceName => (namespaceName, a.name.name)
  if declarations.all (·.allowedDeclaration) &&
      allDistinct (added.filterMap fun (space, _) => if space = [] then none else some space) &&
      allDistinct ordinary && name.space != declarationWord &&
      (name.space.isEmpty || (inner.lookup name.space).isSome) then
    some inner
  else none

/-! ## Reading -/

/-- An element at the top of a text. -/
structure Element where
  name : Text
  attributes : List TagAttribute
  /-- All text inside the element, in order. -/
  text : Text
  /-- The number of characters before the element. -/
  start : Nat
  /-- The number of characters up to the end of the element. -/
  stop : Nat
deriving DecidableEq, Repr

/-- The value of the attribute with this name and no namespace. -/
def Element.attribute? (e : Element) (name : Text) : Option Text :=
  (e.attributes.find? fun a => a.isOrdinary && a.name == { space := [], name }).map (·.value)

/-- A tag that waits for its end tag. -/
structure OpenTag where
  name : QualifiedName
  scope : Scope
deriving DecidableEq, Repr

/-- An element that is being read: the element as far as it goes, and the tags open inside it, the
innermost first and its own last. -/
structure Unfinished where
  element : Element
  inner : OpenTag
  outer : List OpenTag
deriving DecidableEq, Repr

/-- The element being read, after a token that stands at a position. What comes with it is the
element that the token finishes. -/
def readToken? (position : Nat) (lexeme : Lexeme) (unfinished : Option Unfinished) :
    Option (Option Unfinished × Option Element) :=
  let stop := position + lexeme.width
  match lexeme.token, unfinished with
  | .comment, u => some (u, none)
  | .text _, none => some (none, none)
  | .text t, some u =>
    some (some { u with element := { u.element with text := u.element.text ++ t } }, none)
  | .startTag name attributes tagEnd, none => do
    let scope ← Scope.enter? [] name attributes
    let element := { name := name.name, attributes, text := [], start := position, stop }
    match tagEnd with
    | .opened => return (some { element, inner := { name, scope }, outer := [] }, none)
    | .closed => return (none, some element)
  | .startTag name attributes tagEnd, some u => do
    let scope ← Scope.enter? u.inner.scope name attributes
    match tagEnd with
    | .opened => return (some { u with inner := { name, scope }, outer := u.inner :: u.outer }, none)
    | .closed => return (some u, none)
  | .endTag _, none => none
  | .endTag name, some u =>
    if u.inner.name = name then
      match u.outer with
      | [] => some (none, some { u.element with stop })
      | inner :: outer => some (some { u with inner, outer }, none)
    else none

/-- The elements that some tokens complete, for a reader at a position. -/
def elementsFrom? (position : Nat) (unfinished : Option Unfinished) :
    List Lexeme → Option (List Element)
  | [] => if unfinished.isNone then some [] else none
  | lexeme :: rest => do
    let (next, finished) ← readToken? position lexeme unfinished
    let others ← elementsFrom? (position + lexeme.width) next rest
    return finished.toList ++ others

/-- The elements at the top of a text in order; none if the text is not well-formed markup. -/
def elements? (t : Text) : Option (List Element) :=
  (Lexeme.readAll? t).bind (elementsFrom? 0 none)

end DocAudit.Markup
