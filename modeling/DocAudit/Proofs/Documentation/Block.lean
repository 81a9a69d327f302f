import Mathlib.Tactic.SplitIfs
import DocAudit.Documentation.Tags

/-!
# The elements of a block

The tags of a documentation block are read off its elements one by one. Each kind of tag depends on
the elements of that kind alone: of the summaries, the remarks and the descriptions of a return
value the first one is kept, of the references to inherited documentation the last one, and of
examples and named parameters every one.

* `Tags.elements?`: the elements of a block.
* `Element.isKind`, `Element.parameter?`, `Element.inherit?`: what an element is about.
* `Tags.add_eq`, `Tags.foldl_add`: what one element adds, and what many add.
* `Tags.read_eq`, `Tags.read_eq_of_malformed`: the tags of a block.
* `Tags.inherit_read_eq_none_iff`: when a block inherits nothing.
-/

namespace DocAudit

open Markup

namespace Markup.Element

/-- The kind of tag that an element is: its name, in lower case. -/
def kind (e : Element) : Text := lower e.name

/-- Whether an element is of a kind. -/
def isKind (kind : Text) (e : Element) : Bool := e.kind == kind

/-- What an element says: its text, with every line trimmed. -/
def body (e : Element) : Text := tidy e.text

/-- The name of the parameter that an element is about. -/
def parameter? (e : Element) : Option Text :=
  if e.isKind "param" then (e.attribute? "name").map unquote else none

/-- Whether an element is about the parameter of this name. -/
def isAbout (name : Text) (e : Element) : Bool := e.parameter?.any (sameWord · name)

/-- The reference that an element makes to inherited documentation. -/
def inherit? (e : Element) : Option InheritTag :=
  if e.isKind "inheritdoc" then some ⟨(e.attribute? "cref").map trim⟩ else none

theorem isKind_iff {kind : Text} {e : Element} : e.isKind kind = true ↔ e.kind = kind := beq_iff_eq

theorem inherit?_eq_none_iff {e : Element} :
    e.inherit? = none ↔ e.isKind "inheritdoc" = false := by
  rw [inherit?, ite_eq_right_iff, ← Bool.not_eq_true]
  exact ⟨fun h hkind => Option.some_ne_none _ (h hkind), fun h hkind => absurd hkind h⟩

end Markup.Element

/-- The tag of a parameter of this name. -/
def Tag.about (tag : Tag) (name : Text) : ParameterTag := ⟨name, tag.markup, tag.text⟩

namespace Tags

/-- The elements at the top of a block; none if it is not well-formed even with its stray characters
escaped. -/
def elements? (raw : Text) : Option (List Element) := Markup.elements? (escapeStray raw).text

/-! ## Elements one by one -/

/-- What an element adds to the tags: to each kind of tag what it says about that kind. -/
theorem add_eq (t : Tags) (e : Element) (tag : Tag) : t.add e tag =
    { malformed := t.malformed
      summary := t.summary.or (if e.isKind "summary" then some tag else none)
      returns := t.returns.or (if e.isKind "returns" then some tag else none)
      remarks := t.remarks.or (if e.isKind "remarks" then some tag else none)
      examples := t.examples ++ if e.isKind "example" then [tag] else []
      parameters := t.parameters ++ (e.parameter?.map tag.about).toList
      inherit := e.inherit?.or t.inherit } := by
  simp only [add, Element.parameter?, Element.inherit?, Element.isKind, Element.kind]
  cases hname : e.attribute? "name" <;> split_ifs <;> simp_all [Tag.about]

/-- The first of some elements that satisfies `p` is the first one, or that of the others. -/
theorem or_map_find? (p : Element → Bool) (tagOf : Element → Tag) (e : Element)
    (es : List Element) : (if p e then some (tagOf e) else none).or ((es.find? p).map tagOf) =
      ((e :: es).find? p).map tagOf := by
  cases h : p e with
  | false => rw [List.find?_cons_of_neg (by simp [h]), if_neg Bool.false_ne_true, Option.none_or]
  | true => rw [List.find?_cons_of_pos h, if_pos rfl, Option.some_or, Option.map_some]

/-- **What elements add to the tags**, one after the other. -/
theorem foldl_add (tagOf : Element → Tag) (es : List Element) (t : Tags) :
    es.foldl (fun t e => t.add e (tagOf e)) t =
      { malformed := t.malformed
        summary := t.summary.or ((es.find? (·.isKind "summary")).map tagOf)
        returns := t.returns.or ((es.find? (·.isKind "returns")).map tagOf)
        remarks := t.remarks.or ((es.find? (·.isKind "remarks")).map tagOf)
        examples := t.examples ++ (es.filter (·.isKind "example")).map tagOf
        parameters := t.parameters ++ es.filterMap fun e => e.parameter?.map (tagOf e).about
        inherit := (es.reverse.findSome? Element.inherit?).or t.inherit } := by
  induction es generalizing t with
  | nil =>
    simp only [List.foldl_nil, List.find?_nil, Option.map_none, Option.or_none, List.filter_nil,
      List.map_nil, List.filterMap_nil, List.append_nil, List.reverse_nil, List.findSome?_nil,
      Option.none_or]
  | cons e es ih =>
    have hexamples : (if e.isKind "example" then [tagOf e] else []) ++
        (es.filter (·.isKind "example")).map tagOf =
          ((e :: es).filter (·.isKind "example")).map tagOf := by
      rw [List.filter_cons]
      split <;> rfl
    have hparameters : (e.parameter?.map (tagOf e).about).toList ++
        (es.filterMap fun e => e.parameter?.map (tagOf e).about) =
          (e :: es).filterMap fun e => e.parameter?.map (tagOf e).about := by
      rw [List.filterMap_cons]
      cases e.parameter? <;> rfl
    rw [List.foldl_cons, ih, add_eq]
    simp only [Option.or_assoc, or_map_find? (Element.isKind _) tagOf, List.append_assoc,
      hexamples, hparameters, List.reverse_cons, List.findSome?_append, List.findSome?_singleton]

/-! ## A whole block -/

variable {raw : Text}

/-- **The tags of a block** by its elements. -/
theorem read_eq {es : List Element} (h : elements? raw = some es) : read raw =
    { summary := (es.find? (·.isKind "summary")).map (tagOf raw (escapeStray raw))
      returns := (es.find? (·.isKind "returns")).map (tagOf raw (escapeStray raw))
      remarks := (es.find? (·.isKind "remarks")).map (tagOf raw (escapeStray raw))
      examples := (es.filter (·.isKind "example")).map (tagOf raw (escapeStray raw))
      parameters := es.filterMap fun e => e.parameter?.map (tagOf raw (escapeStray raw) e).about
      inherit := es.reverse.findSome? Element.inherit? } := by
  rw [elements?] at h
  simp only [read, h, foldl_add, Option.none_or, List.nil_append, Option.or_none]

theorem read_eq_of_elements?_eq_none (h : elements? raw = none) :
    read raw = { malformed := true } := by
  rw [elements?] at h
  simp only [read, h]

theorem read_eq_of_malformed (h : (read raw).malformed = true) :
    read raw = { malformed := true } := by
  cases hes : elements? raw with
  | none => exact read_eq_of_elements?_eq_none hes
  | some es =>
    rw [read_eq hes] at h
    cases h

theorem inherit_read_eq_none_iff {es : List Element} (h : elements? raw = some es) :
    (read raw).inherit = none ↔ ∀ e ∈ es, e.isKind "inheritdoc" = false := by
  simp only [read_eq h, List.findSome?_eq_none_iff, List.mem_reverse,
    Element.inherit?_eq_none_iff]

end Tags

end DocAudit
