import DocAudit.Proofs.Documentation.Above
import DocAudit.Proofs.Documentation.Prose
import DocAudit.Proofs.Documentation.Tags
import DocAudit.Proofs.Skeleton.Lines
import DocAudit.Proofs.Source.Subset

/-!
# Written documentation is read back

A summary is written as prose between two tags, each line a comment above a declaration. Whatever
stray characters the prose has, the declaration is documented by the lines as written, and their
tags are the one summary.

* `commentText?_asComment_trimRight`: the text of a comment.
* `SourceFile.commentsAbove_of_edge`: where the walk up to the documentation ends.
* `Prose`: the lines that may stand between the tags of a summary.
* `Tags.read_raw`: the tags of such a summary.
* `SourceFile.documentationAbove_written`: a written summary is read back.
-/

namespace DocAudit

open Markup

/-! ## Comments -/

theorem trimRight_append_left {s : Text} (hs : s.getLast?.any isBlank = false)
    (t : Text) : trimRight (s ++ t) = s ++ trimRight t := by
  obtain ⟨blanks, hb, ht⟩ := exists_trimRight t
  have hlast : (s ++ trimRight t).getLast?.any isBlank = false := by
    by_cases hnil : trimRight t = []
    · rw [hnil, List.append_nil]
      exact hs
    · rw [getLast?_append_of_ne_nil s hnil]
      exact getLast?_trimRight t
  have happend := trimRight_append hb (s ++ trimRight t)
  rw [List.append_assoc, ← ht, trimRight_eq_self hlast] at happend
  exact happend

theorem commentText?_asComment_trimRight {indent : Text} (hi : allBlank indent = true) (l : Text) :
    commentText? (asComment indent l) = some (trimRight l) := by
  have htrim : trim (asComment indent l) = commentMarker ++ trimRight (' ' :: l) := by
    rw [trim, asComment, trimLeft, List.dropWhile_append_of_pos (List.all_eq_true.1 hi)]
    exact trimRight_append_left (s := commentMarker) (by decide) (' ' :: l)
  have hcut (t : Text) : commentMarker.isPrefixOf? (commentMarker ++ t) = some t := rfl
  rw [commentText?, htrim, hcut, trimRight_cons]
  by_cases hnil : trimRight l = []
  · rw [if_pos hnil, hnil]
    rfl
  · rw [if_neg hnil]
    rfl

/-! ## Where the walk ends -/

/-- What stands alone on a line that ends the walk: the edges of a body. -/
def edges : List Text := ["\x7b", "\x7d", "end;"]

namespace SourceFile

variable {f : SourceFile} {n : Nat}

theorem commentsAbove_of_edge {line : Text} (hl : f.line? n = some line)
    (hedge : trim line ∈ edges) : f.commentsAbove (n + 1) = [] := by
  have hfacts : ∀ t ∈ edges, t ≠ [] ∧ ']' ∉ t ∧ commentMarker.isPrefixOf? t = none := by decide
  obtain ⟨hne, hbracket, hmarker⟩ := hfacts _ hedge
  have hline : ']' ∉ line := fun hc => hbracket (mem_trim (by decide) hc)
  have hcode : ']' ∉ codeOf line := fun hc => hline (codeOf_subset line hc)
  have hcomment : commentText? line = none := by
    rw [commentText?, hmarker]
    rfl
  have hpassed : ¬ (allBlank line || isAttribute line) = true := by
    rw [Bool.or_eq_true]
    rintro (h | h)
    · exact hne (trim_eq_nil h)
    · rw [isAttribute, Attribute.read?] at h
      split at h
      · cases h
      · next c rest hc =>
        split at h
        · next hends =>
          rw [hc] at hcode
          exact hcode (List.mem_cons_of_mem c (List.mem_of_getLast? hends.2))
        · cases h
  exact commentsAbove_of_stop hl hcomment hpassed (attributeEndingAt?_eq_none hl hcode)

end SourceFile

/-! ## Summaries -/

/-- The lines of prose that may stand between the tags of a summary: whatever markup allows, except
the end of a literal section and what is written as markup itself. -/
structure Prose where
  lines : List Text
  ne_nil : lines ≠ []
  inLine : ∀ l ∈ lines, ∀ c ∈ l, isAllowed c = true ∧ c ≠ '\n' ∧ c ≠ '\r'
  noSection : ∀ l ∈ lines, Text.has "]]>" l = false
  unmarked : Unmarked (joinLines lines)

/-- Lines between the tags of a summary, which stand on lines of their own. -/
def inSummary (ls : List Text) : List Text :=
  ("<summary>" : Text) :: (ls ++ [("</summary>" : Text)])

theorem summary_mem : ("summary" : Text) ∈ documentationTags := by decide

theorem inline_of_none (name : Text) (h : none = some name) : Inline name := nomatch h

namespace Prose

/-- The lines of a summary as comments. -/
def written (p : Prose) (indent : Text) : List Text := (inSummary p.lines).map (asComment indent)

/-- The summary itself: its lines without the blanks at their ends. -/
def raw (p : Prose) : Text := joinLines ((inSummary p.lines).map trimRight)

/-- What stands between the tags. -/
def body (p : Prose) : Text := '\n' :: (joinLines (p.lines.map trimRight) ++ ['\n'])

variable (p : Prose)

theorem map_trimRight_ne_nil : p.lines.map trimRight ≠ [] := mt List.map_eq_nil_iff.1 p.ne_nil

theorem inLine_trimRight :
    ∀ l ∈ p.lines.map trimRight, ∀ c ∈ l, isAllowed c = true ∧ c ≠ '\n' ∧ c ≠ '\r' := by
  intro l hl c hc
  obtain ⟨l', hl', rfl⟩ := List.mem_map.1 hl
  exact p.inLine l' hl' c (trimRight_subset l' hc)

theorem allowed_body : ∀ c ∈ p.body, isAllowed c = true ∧ c ≠ '\r' := by
  have hfeed : isAllowed '\n' = true ∧ '\n' ≠ '\r' := by decide
  intro c hc
  rw [body, List.mem_cons, List.mem_append, List.mem_singleton] at hc
  rcases hc with rfl | hc | rfl
  · exact hfeed
  · rcases mem_joinLines hc with rfl | ⟨l, hl, hcl⟩
    · exact hfeed
    · obtain ⟨h, -, hr⟩ := p.inLine_trimRight l hl c hcl
      exact ⟨h, hr⟩
  · exact hfeed

theorem has_body : Text.has "]]>" p.body = false := by
  have hbody : p.body = joinLines ([] :: (p.lines.map trimRight ++ [[]])) := by
    rw [joinLines_cons _ (List.append_ne_nil_of_right_ne_nil _ (List.cons_ne_nil _ _)),
      joinLines_concat p.map_trimRight_ne_nil]
    rfl
  rw [hbody]
  refine has_joinLines (by decide) (by decide) fun l hl => ?_
  rw [List.mem_cons, List.mem_append, List.mem_singleton] at hl
  rcases hl with rfl | hl | rfl
  · rfl
  · obtain ⟨l', hl', rfl⟩ := List.mem_map.1 hl
    exact has_trimRight (p.noSection l' hl')
  · rfl

theorem tidy_body : tidy p.body = tidyLines p.lines := by
  have hlines : ∀ l ∈ p.lines.map trimRight, '\n' ∉ l ∧ l.getLast? ≠ some '\r' := fun l hl =>
    ⟨fun hc => (p.inLine_trimRight l hl _ hc).2.1 rfl,
      fun hc => (p.inLine_trimRight l hl _ (List.mem_of_getLast? hc)).2.2 rfl⟩
  rw [tidy_eq_tidyLines, body, DocAudit.lines, if_pos rfl,
    lines_joinLines_append_lineFeed p.map_trimRight_ne_nil hlines, tidyLines_nil_cons_map_trimRight]

theorem body_ne_nil : p.body ≠ [] := List.cons_ne_nil _ _

/-- The summary as an element with text and nothing else. -/
def fragment : Fragment where
  tag := "summary"
  known := summary_mem
  name := none
  inline := inline_of_none
  text := p.body
  ne_nil := p.body_ne_nil
  allowed := p.allowed_body

theorem raw_eq : p.raw = p.fragment.opening ++ (p.body ++ p.fragment.closing) := by
  have hne : p.lines.map trimRight ++ [("</summary>" : Text)] ≠ [] :=
    List.append_ne_nil_of_right_ne_nil _ (List.cons_ne_nil _ _)
  have hlines : (inSummary p.lines).map trimRight =
      ("<summary>" : Text) :: (p.lines.map trimRight ++ [("</summary>" : Text)]) := by
    rw [inSummary, List.map_cons, List.map_append]
    rfl
  rw [raw, hlines, joinLines_cons _ hne, joinLines_concat p.map_trimRight_ne_nil, body,
    List.cons_append, List.append_assoc]
  rfl

/-- Between the tags of a summary everything stray is escaped, and nothing else. -/
theorem text_escapeStray_raw :
    (escapeStray p.raw).text =
      p.fragment.opening ++ escapeProse p.body ++ p.fragment.closing := by
  have hopens : strayImage? '<' ("summary>\n" ++ (joinLines (p.lines.map trimRight) ++
      '\n' :: '<' :: "/summary>")) = none := by
    rw [strayImage?, if_neg (by decide), if_pos rfl, if_pos]
    exact (opensMarkup_tag summary_mem rfl).1
  have hclosing : (escapeStray ('\n' :: '<' :: "/summary>")).text = '\n' :: '<' :: "/summary>" := by
    decide +kernel
  have hraw : p.raw = '<' :: ("summary>\n" ++ (joinLines (p.lines.map trimRight) ++
      '\n' :: '<' :: "/summary>")) := by
    rw [raw_eq, body, List.cons_append, List.append_assoc]
    rfl
  have hbody : escapeProse p.body =
      '\n' :: (escapeProse (joinLines (p.lines.map trimRight)) ++ ['\n']) := by
    rw [body, escapeProse_cons, escapeProse_append]
    rfl
  rw [hraw, text_escapeStray_cons, hopens, text_escapeStray_append (by decide),
    text_escapeStray_prose (Padded.joinLines p.lines) p.unmarked, hclosing, hbody]
  simp only [List.append_assoc, List.cons_append]
  rfl

end Prose

namespace Tags

/-- A block that is one summary from its start to its end has that summary as its only tag, with the
block itself as its markup. -/
theorem read_of_summary {raw : Text} {e : Element}
    (helements : Markup.elements? (escapeStray raw).text = some [e])
    (hname : e.name = ("summary" : Text)) (hstart : e.start = 0)
    (hstop : e.stop = (escapeStray raw).text.length) :
    read raw = { summary := some { markup := raw, text := tidy e.text } } := by
  have hzero : (escapeStray raw).rawOffset 0 = 0 := Nat.zero_sub _
  have htag : tagOf raw (escapeStray raw) e = { markup := raw, text := tidy e.text } := by
    rw [tagOf, hstart, hstop, hzero, rawOffset_length, slice, List.drop_zero, Nat.sub_zero,
      List.take_length]
  rw [read, helements]
  simp only [List.foldl_cons, List.foldl_nil, htag, add, hname]
  rfl

/-- **The tags of a summary** are that summary: its prose line by line, and its markup as it is
written. -/
theorem read_raw (p : Prose) :
    read p.raw = { summary := some { markup := p.raw, text := tidyLines p.lines } } := by
  have hread := read?_escapeProse p.body_ne_nil p.allowed_body p.has_body
  have helements := elementsAt?_written p.fragment hread 0 []
  rw [List.append_nil, elementsAt?_nil, Nat.zero_add, ← List.append_assoc,
    ← p.text_escapeStray_raw] at helements
  rw [read_of_summary helements rfl rfl rfl, p.tidy_body]

end Tags

/-! ## Documents -/

namespace SourceFile

variable {f : SourceFile} {start : Nat} {indent : Text}

/-- The walk takes the lines of a summary, and no more if nothing or the edge of a body is above. -/
theorem commentsAbove_written (p : Prose) (hi : allBlank indent = true)
    (hblock : p.written indent <+: f.linesFrom start)
    (habove : start = 0 ∨ ∃ line, f.line? (start - 1) = some line ∧ trim line ∈ edges) :
    (f.commentsAbove (start + (p.lines.length + 2))).map (·.2) =
      ((inSummary p.lines).map trimRight).reverse := by
  have hstop : f.commentsAbove start = [] := by
    rcases habove with rfl | ⟨line, hl, hedge⟩
    · exact commentsAbove_zero f
    · cases start with
      | zero => exact commentsAbove_zero f
      | succ n => exact commentsAbove_of_edge hl hedge
  have hlength : (p.written indent).length = p.lines.length + 2 := by
    rw [Prose.written, inSummary, List.length_map, List.length_cons, List.length_append,
      List.length_singleton]
  have hlines : ∀ i < (p.written indent).length,
      f.line? (start + i) = (p.written indent)[i]? := by
    intro i hlt
    obtain ⟨rest, hrest⟩ := hblock
    rw [line?, ← List.getElem?_drop]
    show (f.linesFrom start)[i]? = _
    rw [← hrest, List.getElem?_append_left hlt]
  have htexts : (p.written indent).map commentText? =
      ((inSummary p.lines).map trimRight).map some := by
    rw [Prose.written, List.map_map, List.map_map]
    exact List.map_congr_left fun l _ => commentText?_asComment_trimRight hi l
  rw [← hlength, commentsAbove_of_comments hlines htexts, hstop, List.map_nil, List.append_nil]

/-- **Written documentation is read back.** Below a summary in comments, with the start of the file
or the edge of a body above it, a declaration is documented by the lines of the summary; and their
tags are the summary, with its text line by line and its markup as written. -/
theorem documentationAbove_written (p : Prose) (hi : allBlank indent = true)
    (hblock : p.written indent <+: f.linesFrom start)
    (habove : start = 0 ∨ ∃ line, f.line? (start - 1) = some line ∧ trim line ∈ edges) :
    f.documentationAbove (start + (p.lines.length + 2)) = some p.raw ∧
      Tags.read p.raw = { summary := some { markup := p.raw, text := tidyLines p.lines } } := by
  have hwalk := commentsAbove_written p hi hblock habove
  refine ⟨?_, Tags.read_raw p⟩
  rw [documentationAbove]
  split
  · next hnil =>
    rw [hnil] at hwalk
    exact absurd (List.reverse_eq_nil_iff.1 hwalk.symm) (List.cons_ne_nil _ _)
  · rw [List.map_reverse, hwalk, List.reverse_reverse, Prose.raw]

/-- Prose with stray characters, and blanks at the ends of its lines. -/
def strayProse : Prose where
  lines := ["  ", " Nuts & bolts, a<b  ", "\"&amp\" and <bar>", ""]
  ne_nil := by decide
  inLine := by decide
  noSection := by decide
  unmarked := by decide +kernel

/-- A file with that prose below the edge of a body. -/
def strayFile : SourceFile where
  path := ⟨"A.al"⟩
  lines := ("\x7b" : Text) :: (strayProse.written "  " ++ [("  procedure Sort()" : Text)])

/-- What looks like a reference and what looks like a tag stand in the text as they were written. -/
theorem documentationAbove_written_stray :
    allBlank "  " = true ∧ strayProse.written "  " <+: strayFile.linesFrom 1 ∧
      strayFile.documentationAbove 7 = some
        "<summary>\n\n Nuts & bolts, a<b\n\"&amp\" and <bar>\n\n</summary>" ∧
      (Tags.read strayProse.raw).summary.map (·.text) = some
        "Nuts & bolts, a<b\n\"&amp\" and <bar>" := by
  have hblock : strayProse.written "  " <+: strayFile.linesFrom 1 := List.prefix_append _ _
  obtain ⟨hdoc, htags⟩ :=
    documentationAbove_written strayProse (by decide) hblock (Or.inr ⟨"\x7b", rfl, by decide⟩)
  refine ⟨by decide, hblock, hdoc.trans (by decide +kernel), ?_⟩
  rw [htags]
  decide +kernel

end SourceFile

end DocAudit
