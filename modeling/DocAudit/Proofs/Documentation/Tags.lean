import DocAudit.Documentation.Tags
import DocAudit.Proofs.Documentation.Escape

/-!
# The tags of fragments

Documentation made of fragments on lines of their own has a tag for each fragment, and the tag holds
the fragment as written.

* `Fragment.asTag`, `Tags.addFragment`: the tag of a fragment, and its effect on the tags so far.
* `Tags.read_joinLines_markup`: the tags of such documentation.
* `Tags.foldl_addFragment_parameters`: fragments that document parameters.
-/

namespace DocAudit

open Markup

/-- The tag that a fragment stands for. -/
def Fragment.asTag (e : Fragment) : Tag where
  markup := e.markup
  text := tidy e.text

/-- The tag of a fragment that documents a parameter. -/
def Fragment.asParameter (e : Fragment) : ParameterTag where
  name := unquote (e.name.getD [])
  markup := e.markup
  text := tidy e.text

@[simp] theorem Fragment.asTag_text (e : Fragment) : e.asTag.text = tidy e.text := rfl

@[simp] theorem Fragment.asParameter_text (e : Fragment) : e.asParameter.text = tidy e.text := rfl

namespace Tags

/-- The tags with one more fragment taken into account. -/
def addFragment (t : Tags) (e : Fragment) : Tags := t.add (e.element 0) e.asTag

/-- A fragment is cut out of a text in which nothing was escaped. -/
theorem tagOf_element {raw before after : Text} {e : Fragment}
    (h : raw = before ++ (e.markup ++ after)) :
    tagOf raw { escapes := [], text := raw } (e.element before.length) = e.asTag := by
  have hslice : slice raw before.length (before.length + e.markup.length) = e.markup := by
    rw [slice, h, List.drop_left, Nat.add_sub_cancel_left, List.take_left]
  show Tag.mk (slice raw before.length (before.length + e.markup.length)) (tidy e.text) = _
  rw [hslice]
  rfl

theorem foldl_elementsOf {raw : Text} (es : List Fragment) {before : Text}
    (h : raw = before ++ joinLines (es.map Fragment.markup)) (t : Tags) :
    (elementsOf before.length es).foldl
        (fun t e => t.add e (tagOf raw { escapes := [], text := raw } e)) t =
      es.foldl addFragment t := by
  induction es generalizing before t with
  | nil => rfl
  | cons e es ih =>
    cases es with
    | nil =>
      rw [List.map_cons, List.map_nil, joinLines, List.intercalate_singleton,
        ← List.append_nil e.markup] at h
      simp only [elementsOf, List.foldl_cons, tagOf_element h]
      rfl
    | cons e' es =>
      rw [List.map_cons, List.map_cons, joinLines_cons_cons] at h
      have hlength : before.length + e.markup.length + 1 =
          (before ++ (e.markup ++ ['\n'])).length := by
        simp only [List.length_append, List.length_singleton, Nat.add_assoc]
      have hraw : raw = before ++ (e.markup ++ ['\n']) ++
          joinLines ((e' :: es).map Fragment.markup) := by
        simp only [h, List.map_cons, List.append_assoc, List.singleton_append]
      have hrest := ih hraw (t.addFragment e)
      simp only [elementsOf, List.foldl_cons, tagOf_element h, hlength]
      exact hrest

/-- **The tags of fragments on lines of their own** are the tags of the fragments. -/
theorem read_joinLines_markup (es : List Fragment) :
    read (joinLines (es.map Fragment.markup)) = es.foldl addFragment {} := by
  rw [read, escapeStray_of_noStray (noStray_joinLines_markup es)]
  simp only
  rw [elements?_joinLines]
  exact @foldl_elementsOf _ es [] rfl {}

/-! ## Kinds of fragments -/

theorem addFragment_summary {e : Fragment} (h : e.tag = ("summary" : Text)) (t : Tags) :
    t.addFragment e = { t with summary := t.summary.or (some e.asTag) } := by
  have hname : lower (e.element 0).name = ("summary" : Text) := by
    show lower e.tag = _
    rw [h]
    decide
  rw [addFragment, add, hname]
  rfl

theorem addFragment_returns {e : Fragment} (h : e.tag = ("returns" : Text)) (t : Tags) :
    t.addFragment e = { t with returns := t.returns.or (some e.asTag) } := by
  have hname : lower (e.element 0).name = ("returns" : Text) := by
    show lower e.tag = _
    rw [h]
    decide
  rw [addFragment, add, hname]
  rfl

theorem addFragment_parameter {e : Fragment} (h : e.tag = ("param" : Text))
    (hn : e.name.isSome = true) (t : Tags) :
    t.addFragment e = { t with parameters := t.parameters ++ [e.asParameter] } := by
  have hname : lower (e.element 0).name = ("param" : Text) := by
    show lower e.tag = _
    rw [h]
    decide
  obtain ⟨n, hn⟩ := Option.isSome_iff_exists.1 hn
  have hattribute : (e.element 0).attribute? "name" = some n := by
    show (e.attributes.find? _).map _ = some n
    rw [Fragment.attributes, hn]
    rfl
  rw [addFragment, add, hname, hattribute, Fragment.asParameter, hn]
  rfl

theorem foldl_addFragment_parameters {es : List Fragment}
    (h : ∀ e ∈ es, e.tag = ("param" : Text) ∧ e.name.isSome = true) (t : Tags) :
    es.foldl addFragment t =
      { t with parameters := t.parameters ++ es.map Fragment.asParameter } := by
  induction es generalizing t with
  | nil =>
    rw [List.map_nil, List.append_nil]
    rfl
  | cons e es ih =>
    obtain ⟨htag, hn⟩ := h e List.mem_cons_self
    rw [List.foldl_cons, addFragment_parameter htag hn,
      ih fun e' he => h e' (List.mem_cons_of_mem e he), List.map_cons, List.append_assoc,
      List.singleton_append]

end Tags

end DocAudit
