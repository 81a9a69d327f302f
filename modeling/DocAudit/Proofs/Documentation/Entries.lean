import DocAudit.Proofs.Documentation.Block
import DocAudit.Proofs.Documentation.Places
import DocAudit.Proofs.Documentation.Word
import DocAudit.Proofs.Markup.Piece

/-!
# Tags on their own

Each tag of a documentation block holds a piece of the block as written, and the piece taken alone
is documentation with that one tag. Two things could go wrong. The piece is cut out at places that
are computed from places in the escaped block; but an element starts with one angle bracket and ends
with another, and there a cut through the escaped block is one through the block. And the escaping
of a character looks ahead of it; but never past the end of a tag, which a piece ends with.

* `escapeBefore_eq_of_getLast?`: the escaping of a piece does not depend on what is behind it.
* `exists_piece`: a piece of the escaped block comes from a piece of the block.
* `TagEntry`, `Tags.entries?`, `Tags.Lists`: the tags of a block with their markup, in one list.
* `Apart`: texts that stand in another one, one behind the other.
* `Tags.exists_entries`: the entries of a block are apart, and each of them stands on its own.
-/

namespace DocAudit

open Markup

/-! ## Pieces of a block -/

/-- **A piece is escaped as if it stood alone**, since it ends where a tag ends. -/
theorem escapeBefore_eq_of_getLast? {m : Text} (h : m.getLast? = some '>') (r : Text) :
    escapeBefore r m = (escapeStray m).text := by
  induction m with
  | nil => rfl
  | cons c m ih =>
    rw [text_escapeStray_cons, escapeBefore]
    cases m with
    | nil =>
      obtain rfl : c = '>' := Option.some.inj h
      rfl
    | cons d m =>
      have hlast : (d :: m).getLast? = some '>' := by rwa [List.getLast?_cons_cons] at h
      rw [strayImage?_append (List.mem_of_getLast? hlast), ih hlast]

theorem exists_between {m : Text} (hfirst : m.head? = some '<') (hlast : m.getLast? = some '>') :
    ∃ inner, m = '<' :: (inner ++ ['>']) := by
  obtain ⟨tail, rfl⟩ := List.head?_eq_some_iff.1 hfirst
  obtain ⟨start, hstart⟩ := List.getLast?_eq_some_iff.1 hlast
  cases start with
  | nil => cases hstart
  | cons c inner => exact ⟨inner, congrArg _ (List.cons.inj hstart).2⟩

/-- **A piece of the escaped block** comes from a piece of the block. -/
theorem exists_piece {t gap m' rest : Text} (h : (escapeStray t).text = gap ++ (m' ++ rest))
    (hfirst : m'.head? = some '<') (hlast : m'.getLast? = some '>') :
    ∃ s m r, t = s ++ (m ++ r) ∧ m.head? = some '<' ∧ m.getLast? = some '>' ∧
      gap = escapeBefore (m ++ r) s ∧ m' = (escapeStray m).text ∧ rest = (escapeStray r).text := by
  obtain ⟨inner, rfl⟩ := exists_between hfirst hlast
  -- Both brackets are places where the block can be cut.
  have hstart : (escapeStray t).text = gap ++ '<' :: (inner ++ '>' :: rest) := by simp [h]
  obtain ⟨s, t', rfl, hgap, hinner⟩ := exists_cut (by decide) hstart
  obtain ⟨s', r, rfl, -, rfl⟩ := exists_cut (by decide) hinner.symm
  have hcut : '<' :: (s' ++ '>' :: r) = '<' :: (s' ++ ['>']) ++ r := by simp
  have hend : ('<' :: (s' ++ ['>'])).getLast? = some '>' := by
    rw [← List.cons_append, List.getLast?_concat]
  refine ⟨s, '<' :: (s' ++ ['>']), r, by rw [hcut], rfl, hend, by rw [hgap, hcut], ?_, rfl⟩
  rw [text_escapeStray_eq, hgap, List.append_cancel_left_eq, hcut, text_escapeStray_eq,
    escapeBefore_eq_of_getLast? hend] at h
  exact (List.append_cancel_right h).symm

/-! ## Texts apart from each other -/

/-- The texts stand in another one, one behind the other. -/
inductive Apart : List Text → Text → Prop
  | nil (t : Text) : Apart [] t
  | cons {ms : List Text} {t : Text} (gap m : Text) (h : Apart ms t) :
      Apart (m :: ms) (gap ++ (m ++ t))

namespace Apart

variable {ms ms' : List Text} {t : Text}

theorem append_left (s : Text) (h : Apart ms t) : Apart ms (s ++ t) := by
  cases h with
  | nil => exact nil _
  | cons gap m h =>
    rw [← List.append_assoc]
    exact cons (s ++ gap) m h

theorem sublist (h : Apart ms t) (hsub : ms'.Sublist ms) : Apart ms' t := by
  induction h generalizing ms' with
  | nil =>
    rw [List.sublist_nil.1 hsub]
    exact nil _
  | cons gap m h ih =>
    cases hsub with
    | cons _ hsub => exact ((ih hsub).append_left m).append_left gap
    | cons_cons _ hsub => exact cons gap m (ih hsub)

end Apart

/-! ## Elements of a block -/

namespace Tags

variable {raw : Text}

/-- The tag that an element of a block stands for. -/
def tagIn (raw : Text) (e : Element) : Tag := tagOf raw (escapeStray raw) e

/-- What is cut out between two places of the escaped block that come from the ends of a piece. -/
theorem markup_tagIn {s m r : Text} (h : raw = s ++ (m ++ r)) (e : Element) :
    (tagIn raw (e.placed (escapeBefore (m ++ r) s).length
      (escapeBefore r (s ++ m)).length)).markup = m := by
  have hstart : (escapeStray raw).rawOffset (escapeBefore (m ++ r) s).length = s.length := by
    rw [h, rawOffset_escapeBefore]
  have hstop : (escapeStray raw).rawOffset (escapeBefore r (s ++ m)).length =
      s.length + m.length := by
    rw [h, ← List.append_assoc, rawOffset_escapeBefore, List.length_append]
  simp only [tagIn, tagOf, Element.placed, hstart, hstop]
  rw [slice, h, List.drop_left, Nat.add_sub_cancel_left, List.take_left]

/-- The tag of an element holds its markup, and the markup alone has the one element with this
tag. -/
structure StandsAlone (raw : Text) (e : Element) : Prop where
  first : (tagIn raw e).markup.head? = some '<'
  last : (tagIn raw e).markup.getLast? = some '>'
  alone : ∃ a b, elements? (tagIn raw e).markup = some [e.placed a b] ∧
    tagIn (tagIn raw e).markup (e.placed a b) = tagIn raw e

theorem elements?_of_isPiece {m : Text} {e : Element} (h : IsPiece (escapeStray m).text e) :
    elements? m = some [e.placed 0 (escapeStray m).text.length] := by
  have hread := h.read 0 []
  rw [List.append_nil, elementsAt?_nil, Nat.zero_add] at hread
  exact hread

theorem tagIn_placed {m : Text} (e : Element) :
    tagIn m (e.placed 0 (escapeStray m).text.length) = ⟨m, tidy e.text⟩ := by
  have hwhole : m = [] ++ (m ++ []) := by simp
  have hmarkup := markup_tagIn hwhole e
  rw [List.nil_append, escapeBefore_nil] at hmarkup
  exact congrArg (Tag.mk · (tidy e.text)) hmarkup

/-- **The elements of a block are apart, and each stands alone.** -/
theorem apart_of_pieces {position : Nat} {t : Text} {es : List Element} (h : Pieces position t es)
    {before after : Text} (hraw : raw = before ++ after) (ht : t = (escapeStray after).text)
    (hposition : position = (escapeBefore after before).length) :
    Apart (es.map fun e => (tagIn raw e).markup) after ∧ ∀ e ∈ es, StandsAlone raw e := by
  induction h generalizing before after with
  | nil position gap => exact ⟨.nil after, List.forall_mem_nil _⟩
  | @cons position m' rest e es gap hpiece hrest ih =>
    obtain ⟨s, m, r, rfl, hfirst, hlast, rfl, rfl, rfl⟩ :=
      exists_piece ht.symm hpiece.first hpiece.last
    have hstart : position + (escapeBefore (m ++ r) s).length =
        (escapeBefore (m ++ r) (before ++ s)).length := by
      rw [escapeBefore_append, List.length_append, hposition]
    have hstop : (escapeBefore (m ++ r) (before ++ s)).length + (escapeStray m).text.length =
        (escapeBefore r (before ++ s ++ m)).length := by
      rw [escapeBefore_append r, List.length_append, escapeBefore_eq_of_getLast? hlast]
    rw [hstart, hstop] at ih ⊢
    rw [← List.append_assoc] at hraw
    have hmarkup := markup_tagIn hraw e
    have htag : tagIn raw (e.placed (escapeBefore (m ++ r) (before ++ s)).length
        (escapeBefore r (before ++ s ++ m)).length) = ⟨m, tidy e.text⟩ :=
      congrArg (Tag.mk · (tidy e.text)) hmarkup
    obtain ⟨hapart, halone⟩ := ih (hraw.trans (List.append_assoc (before ++ s) m r).symm) rfl rfl
    constructor
    · rw [List.map_cons, hmarkup]
      exact .cons s m hapart
    · refine List.forall_mem_cons.2 ⟨?_, halone⟩
      constructor
      · rw [hmarkup, hfirst]
      · rw [hmarkup, hlast]
      · have helements := elements?_of_isPiece hpiece
        rw [htag]
        exact ⟨0, _, helements, tagIn_placed e⟩

end Tags

/-! ## Entries -/

/-- One of the tags of a block that have markup. -/
inductive TagEntry
  | summary (tag : Tag)
  | returns (tag : Tag)
  | remarks (tag : Tag)
  | sample (tag : Tag)
  | parameter (tag : ParameterTag)

/-- The tag as written. -/
def TagEntry.markup : TagEntry → Text
  | summary tag | returns tag | remarks tag | sample tag => tag.markup
  | parameter tag => tag.markup

/-- The entry that an element makes with its tag. -/
def Markup.Element.entryOf? (e : Element) (tag : Tag) : Option TagEntry :=
  if e.kind = ("summary" : Text) then some (.summary tag)
  else if e.kind = ("returns" : Text) then some (.returns tag)
  else if e.kind = ("remarks" : Text) then some (.remarks tag)
  else if e.kind = ("example" : Text) then some (.sample tag)
  else if e.kind = ("param" : Text) then
    (e.attribute? "name").map fun name => .parameter (tag.about (unquote name))
  else none

theorem markup_of_entryOf? {e : Element} {tag : Tag} {entry : TagEntry}
    (h : e.entryOf? tag = some entry) : entry.markup = tag.markup := by
  rw [Element.entryOf?] at h
  split_ifs at h
  iterate 4
    · cases h
      rfl
  · obtain ⟨name, -, rfl⟩ := Option.map_eq_some_iff.1 h
    rfl

namespace Tags

/-- The tags with one more entry. -/
def addEntry (t : Tags) : TagEntry → Tags
  | .summary tag => { t with summary := t.summary.or (some tag) }
  | .returns tag => { t with returns := t.returns.or (some tag) }
  | .remarks tag => { t with remarks := t.remarks.or (some tag) }
  | .sample tag => { t with examples := t.examples ++ [tag] }
  | .parameter tag => { t with parameters := t.parameters ++ [tag] }

/-- The tags of a block with this entry only. -/
def only (entry : TagEntry) : Tags := ({} : Tags).addEntry entry

theorem add_of_entryOf? {e : Element} {tag : Tag} {entry : TagEntry}
    (h : e.entryOf? tag = some entry) (t : Tags) : t.add e tag = t.addEntry entry := by
  rw [Element.entryOf?, Element.kind] at h
  rw [add]
  split_ifs at h ⊢
  iterate 4
    · cases h
      rfl
  · obtain ⟨name, hname, rfl⟩ := Option.map_eq_some_iff.1 h
    rw [hname]
    rfl

/-- An element that makes no entry adds at most a reference to inherited documentation. -/
theorem add_of_entryOf?_eq_none {e : Element} {tag : Tag} (h : e.entryOf? tag = none) (t : Tags) :
    ∃ inherit, t.add e tag = { t with inherit } := by
  rw [Element.entryOf?, Element.kind] at h
  rw [add]
  split_ifs at h ⊢
  · rw [Option.map_eq_none_iff.1 h]
    exact ⟨t.inherit, rfl⟩
  · exact ⟨_, rfl⟩
  · exact ⟨t.inherit, rfl⟩

/-- These are the tags with markup: of some kinds the first entry, and of the others all. -/
structure Lists (t : Tags) (entries : List TagEntry) : Prop where
  summary : t.summary = entries.findSome? fun entry => (only entry).summary
  returns : t.returns = entries.findSome? fun entry => (only entry).returns
  remarks : t.remarks = entries.findSome? fun entry => (only entry).remarks
  examples : t.examples = entries.flatMap fun entry => (only entry).examples
  parameters : t.parameters = entries.flatMap fun entry => (only entry).parameters

theorem Lists.addEntry {t : Tags} {entries : List TagEntry} (h : t.Lists entries)
    (entry : TagEntry) : (t.addEntry entry).Lists (entries ++ [entry]) := by
  constructor
  · rw [List.findSome?_append, ← h.summary]
    cases entry <;> simp [only, Tags.addEntry]
  · rw [List.findSome?_append, ← h.returns]
    cases entry <;> simp [only, Tags.addEntry]
  · rw [List.findSome?_append, ← h.remarks]
    cases entry <;> simp [only, Tags.addEntry]
  · rw [List.flatMap_append, ← h.examples]
    cases entry <;> simp [only, Tags.addEntry]
  · rw [List.flatMap_append, ← h.parameters]
    cases entry <;> simp [only, Tags.addEntry]

/-- The entry that an element of a block makes. -/
def entryIn? (raw : Text) (e : Element) : Option TagEntry := e.entryOf? (tagIn raw e)

/-- The entries that the elements of a block make, in their order. -/
def entries? (raw : Text) : Option (List TagEntry) :=
  (elements? raw).map fun es => es.filterMap (entryIn? raw)

theorem Lists.foldl_add (es : List Element) {t : Tags} {entries : List TagEntry}
    (h : t.Lists entries) :
    (es.foldl (fun t e => t.add e (tagIn raw e)) t).Lists
      (entries ++ es.filterMap (entryIn? raw)) := by
  induction es generalizing t entries with
  | nil => simpa using h
  | cons e es ih =>
    rw [List.foldl_cons]
    cases he : entryIn? raw e with
    | none =>
      obtain ⟨inherit, hadd⟩ := add_of_entryOf?_eq_none he t
      rw [hadd, List.filterMap_cons_none he]
      exact ih ⟨h.summary, h.returns, h.remarks, h.examples, h.parameters⟩
    | some entry =>
      rw [add_of_entryOf? he, List.filterMap_cons_some he, List.append_cons]
      exact ih (h.addEntry entry)

/-! ## Tags on their own -/

theorem read_eq_foldl {es : List Element} (h : elements? raw = some es) :
    read raw = es.foldl (fun t e => t.add e (tagIn raw e)) {} := by
  rw [elements?] at h
  simp only [read, h]
  rfl

theorem lists_read {es : List Element} (h : elements? raw = some es) :
    (read raw).Lists (es.filterMap (entryIn? raw)) := by
  have hempty : ({} : Tags).Lists [] := ⟨rfl, rfl, rfl, rfl, rfl⟩
  rw [read_eq_foldl h]
  exact hempty.foldl_add es

theorem map_markup_sublist (es : List Element) :
    ((es.filterMap (entryIn? raw)).map TagEntry.markup).Sublist
      (es.map fun e => (tagIn raw e).markup) := by
  induction es with
  | nil => exact List.Sublist.refl _
  | cons e es ih =>
    rw [List.map_cons]
    cases he : entryIn? raw e with
    | none =>
      rw [List.filterMap_cons_none he]
      exact ih.cons _
    | some entry =>
      rw [List.filterMap_cons_some he, List.map_cons, markup_of_entryOf? he]
      exact ih.cons_cons _

theorem StandsAlone.read_eq {e : Element} (h : StandsAlone raw e) {entry : TagEntry}
    (he : entryIn? raw e = some entry) :
    entry.markup.head? = some '<' ∧ entry.markup.getLast? = some '>' ∧
      read entry.markup = only entry := by
  obtain ⟨hfirst, hlast, a, b, helements, htag⟩ := h
  rw [markup_of_entryOf? he]
  refine ⟨hfirst, hlast, ?_⟩
  rw [read_eq_foldl helements, List.foldl_cons, List.foldl_nil, htag]
  exact add_of_entryOf? he {}

/-- **The tags of a block stand on their own**: they are the entries of its elements, with pieces of
the block that are apart and in the order of the entries, and each piece, from one angle bracket to
another, is read as its entry only. -/
theorem exists_entries (h : (read raw).malformed = false) :
    ∃ entries, entries? raw = some entries ∧ (read raw).Lists entries ∧
      Apart (entries.map TagEntry.markup) raw ∧
      ∀ entry ∈ entries, entry.markup.head? = some '<' ∧ entry.markup.getLast? = some '>' ∧
        read entry.markup = only entry := by
  cases hes : elements? raw with
  | none =>
    rw [read_eq_of_elements?_eq_none hes] at h
    cases h
  | some es =>
    obtain ⟨hapart, halone⟩ := apart_of_pieces (pieces_of_elementsAt? hes)
      (List.nil_append raw).symm rfl rfl
    have hentries : entries? raw = some (es.filterMap (entryIn? raw)) := by
      rw [entries?, hes]
      rfl
    refine ⟨es.filterMap (entryIn? raw), hentries, lists_read hes,
      hapart.sublist (map_markup_sublist es), fun entry hentry => ?_⟩
    obtain ⟨e, he, hentry⟩ := List.mem_filterMap.1 hentry
    exact (halone e he).read_eq hentry

/-- A block with stray characters before an element, in it and behind the last. -/
def strayBlock : Text :=
  "Q&A\n<summary>Salt & pepper, 1 < 2.</summary>\n<param name=\"A & B\">Any.</param> & so on"

theorem exists_entries_strayBlock :
    (read strayBlock).malformed = false ∧
      (read strayBlock).parameters.map (·.name) = [("A & B" : Text)] ∧
      ∃ entries, entries? strayBlock = some entries ∧ (read strayBlock).Lists entries ∧
        Apart (entries.map TagEntry.markup) strayBlock ∧
        ∀ entry ∈ entries, entry.markup.head? = some '<' ∧ entry.markup.getLast? = some '>' ∧
          read entry.markup = only entry :=
  ⟨by decide +kernel, by decide +kernel, exists_entries (by decide +kernel)⟩

end Tags

end DocAudit
