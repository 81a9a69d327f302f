import DocAudit.Proofs.Documentation.Above
import DocAudit.Proofs.Source.Line
import DocAudit.Proofs.Source.Nesting

/-!
# Attributes seen from below

The pass over a file reads an attribute from its first line on. The walk up to the documentation
comes from below: it has to tell from the last line that an attribute ends there, and where that
attribute opens. The search takes the nearest line above that opens with a bracket for the first
line, and a last line that is an attribute in itself is not searched from at all. So the walk passes
over an attribute of several lines when no line between its first and last opens with a bracket, and
its last line is no attribute in itself.

* `SourceFile.attributeEndingAt?_eq_iff`: when the search from the last line agrees.
* `SourceFile.OpenToBelow`: an attribute that the walk recognizes.
* `SourceFile.Gap`: blank lines and such attributes between two lines; `Gap.commentsAbove_eq`: the
  walk crosses them.
* `SourceFile.documentationAbove_attributes`: both readings together.
-/

namespace DocAudit

theorem isAttribute_codeOf (line : Text) : isAttribute (codeOf line) = isAttribute line := by
  rw [isAttribute, isAttribute, Attribute.read?, Attribute.read?, codeOf_codeOf]

namespace SourceFile

variable {f : SourceFile} {first last n : Nat} {whole : Text}

/-! ## One attribute -/

/-- **The search from the last line of an attribute finds its first line** exactly when no line
between opens with a bracket. -/
theorem attributeEndingAt?_eq_iff (h : f.attributeAt? first = some (whole, last))
    (hlt : first < last) : f.attributeEndingAt? last = some first ↔
      ∀ m, first < m → m < last → (f.line? m).any opensAttribute = false := by
  rw [attributeEndingAt?_eq_some_iff]
  constructor
  · rintro ⟨-, -, hbetween⟩ m hm hm'
    obtain ⟨line, hl, hopen⟩ := hbetween m hm hm'
    rw [hl, Option.any_some, hopen]
  · intro hbetween
    refine ⟨hlt, ⟨whole, h⟩, fun m hm hm' => ?_⟩
    have hcount := (attributeAt?_le h).2.2.1
    obtain ⟨line, hl⟩ := Option.isSome_iff_exists.1 (line?_isSome_iff.2 (Nat.lt_trans hm' hcount))
    have hopen := hbetween m hm hm'
    rw [hl, Option.any_some] at hopen
    exact ⟨line, hl, hopen⟩

/-- No line between the first and the last opens with a bracket, and the last of several lines is no
attribute in itself. -/
structure OpenToBelow (f : SourceFile) (first last : Nat) : Prop where
  between : ∀ m, first < m → m < last → (f.line? m).any opensAttribute = false
  ending : first < last → (f.line? last).any isAttribute = false

theorem isAttribute_of_attributeAt? (h : f.attributeAt? n = some (whole, n)) :
    ∃ line, f.line? n = some line ∧ isAttribute line = true ∧ commentText? line = none := by
  obtain ⟨extra, he, hextra⟩ := attributeAt?_eq_some_iff.1 h
  obtain rfl : extra = 0 := by omega
  obtain ⟨line, hl⟩ := Option.isSome_iff_exists.1 (line?_isSome_iff.2 (attributeAt?_le h).2.2.1)
  rw [linesFrom_eq_cons hl] at he
  obtain ⟨hopen, hgather⟩ := readAttribute?_eq_some_iff.1 he
  refine ⟨line, hl, ?_, commentText?_eq_none ?_⟩
  · rw [gatherAttribute_of_depth_eq_zero (depth_eq_zero_of_gatherAttribute hgather),
      isAttribute_codeOf] at hgather
    by_contra hno
    rw [if_neg hno] at hgather
    cases hgather
  · rw [Bool.eq_false_iff]
    intro hcomment
    rw [opensAttribute_eq_false hcomment] at hopen
    cases hopen

/-- The walk passes over an attribute that it can tell from below. -/
theorem commentsAbove_attribute (h : f.attributeAt? first = some (whole, last))
    (hopen : f.OpenToBelow first last) : f.commentsAbove (last + 1) = f.commentsAbove first := by
  obtain ⟨hle, -, hcount, -⟩ := attributeAt?_le h
  rcases Nat.eq_or_lt_of_le hle with rfl | hlt
  · obtain ⟨line, hl, hattribute, hcomment⟩ := isAttribute_of_attributeAt? h
    exact commentsAbove_of_passed hl hcomment (by rw [hattribute, Bool.or_true])
  · obtain ⟨line, hl⟩ := Option.isSome_iff_exists.1 (line?_isSome_iff.2 hcount)
    have hending := (attributeEndingAt?_eq_iff h hlt).2 hopen.between
    have hcomment := (attributeAt?_code h hlt (Nat.le_refl last) hl).2
    -- A blank line has no bracket that could close the attribute.
    have hblank : allBlank line = false := by
      rw [Bool.eq_false_iff]
      intro hblank
      have hnone := attributeEndingAt?_eq_none hl
        (by rw [codeOf_eq_nil_of_allBlank hblank]; exact List.not_mem_nil)
      rw [hending] at hnone
      cases hnone
    have hself := hopen.ending hlt
    rw [hl, Option.any_some] at hself
    exact commentsAbove_of_attribute hl (commentText?_eq_none hcomment)
      (by rw [hblank, hself]; exact Bool.false_ne_true) hending

/-! ## What stands between a block and a header -/

/-- From line `n` down to a line there are only blank lines, and attributes that the pass reads and
that the walk can tell from below. -/
inductive Gap (f : SourceFile) (n : Nat) : Nat → Prop
  | nil : Gap f n n
  | blank {k : Nat} {line : Text} (hgap : Gap f n k) (hl : f.line? k = some line)
      (hb : allBlank line = true) : Gap f n (k + 1)
  | brackets {first last : Nat} {whole : Text} (hgap : Gap f n first)
      (h : f.attributeAt? first = some (whole, last)) (hopen : f.OpenToBelow first last) :
      Gap f n (last + 1)

theorem Gap.commentsAbove_eq {k : Nat} (h : f.Gap n k) :
    f.commentsAbove k = f.commentsAbove n := by
  induction h with
  | nil => rfl
  | blank _ hl hb ih =>
    have hcomment := commentText?_eq_none (isStructuredComment_eq_false_of_allBlank hb)
    rw [commentsAbove_of_passed hl hcomment (by rw [hb, Bool.true_or]), ih]
  | brackets _ h hopen ih => rw [commentsAbove_attribute h hopen, ih]

/-- **Attributes read from above and from below.** The search from the last line of an attribute
finds its first line exactly when no line between opens with a bracket. A block of comments that
only blank lines, and attributes that can be told from below, separate from line `k` is part of the
documentation of a declaration there: it ends the documentation. -/
theorem documentationAbove_attributes (f : SourceFile) :
    (∀ first whole last, f.attributeAt? first = some (whole, last) → first < last →
      (f.attributeEndingAt? last = some first ↔
        ∀ m, first < m → m < last → (f.line? m).any opensAttribute = false)) ∧
    ∀ n ls texts k, ls ≠ [] → (∀ i < ls.length, f.line? (n + i) = ls[i]?) →
      ls.map commentText? = texts.map some → f.Gap (n + ls.length) k →
      f.documentationAbove k =
        some (joinLines ((f.commentsAbove n).reverse.map (·.2) ++ texts)) := by
  refine ⟨fun first whole last h hlt => attributeEndingAt?_eq_iff h hlt, ?_⟩
  intro n ls texts k hne hl htexts hgap
  have hwalk := commentsAbove_of_comments hl htexts
  rw [← hgap.commentsAbove_eq] at hwalk
  have hnil : f.commentsAbove k ≠ [] := by
    intro hnil
    rw [hnil, List.map_nil, eq_comm, List.append_eq_nil_iff, List.reverse_eq_nil_iff] at hwalk
    rw [hwalk.1, List.map_nil, List.map_eq_nil_iff] at htexts
    exact hne htexts
  obtain ⟨c, rest, hcons⟩ := List.exists_cons_of_ne_nil hnil
  rw [documentationAbove, hcons]
  simp only
  rw [← hcons, List.map_reverse, hwalk, List.reverse_append, List.reverse_reverse,
    List.map_reverse]

/-- A block of comments above an attribute of one line and one of two lines. -/
def obsoleteOpen : SourceFile where
  path := ⟨"Tools.al"⟩
  lines := ["/// Opens the item.", "/// It stays open.", "[TryFunction]", "",
    "[Obsolete('Use Show.',", "  '24.0')]", "procedure Open()"]

theorem documentationAbove_attributes_obsoleteOpen :
    obsoleteOpen.attributeAt? 4 = some (("[Obsolete('Use Show.', '24.0')]" : Text), 5) ∧
      obsoleteOpen.attributeEndingAt? 5 = some 4 ∧ obsoleteOpen.Gap 2 6 ∧
      obsoleteOpen.documentationAbove 6 =
        some (joinLines ["Opens the item.", "It stays open."]) := by
  have hone : obsoleteOpen.attributeAt? 2 = some (("[TryFunction]" : Text), 2) := by decide +kernel
  have htwo :
      obsoleteOpen.attributeAt? 4 = some (("[Obsolete('Use Show.', '24.0')]" : Text), 5) := by
    decide +kernel
  have hbetween : ∀ m, 4 < m → m < 5 → (obsoleteOpen.line? m).any opensAttribute = false :=
    fun m hm hm' => by omega
  have hgap : obsoleteOpen.Gap 2 6 :=
    .brackets (.blank (.brackets .nil hone ⟨fun m hm hm' => by omega, fun h => by omega⟩) rfl rfl)
      htwo ⟨hbetween, fun _ => by decide +kernel⟩
  obtain ⟨hsearch, hblock⟩ := documentationAbove_attributes obsoleteOpen
  have hdoc := hblock 0 ["/// Opens the item.", "/// It stays open."]
    ["Opens the item.", "It stays open."] 6 (by decide) (by decide) (by decide +kernel) hgap
  rw [commentsAbove_zero] at hdoc
  exact ⟨htwo, (hsearch 4 _ 5 htwo (by decide)).2 hbetween, hgap, hdoc⟩

/-- A block of comments above an attribute with a list, which starts a line of its own. -/
def listedScope : SourceFile where
  path := ⟨"Tools.al"⟩
  lines := ["/// Opens the item.", "[Scope(", "['OnPrem'],", "1)]", "procedure Open()"]

/-- A block of comments above an attribute whose last line is an attribute too, seen by itself. -/
def quotedBracket : SourceFile where
  path := ⟨"Tools.al"⟩
  lines := ["/// Opens the item.", "[Caption('", "[Caption(')]", "procedure Open()"]

/-- Neither block is found: the first attribute is not found from its last line, and of the second
one the walk passes over the last line only. -/
theorem documentationAbove_eq_none_of_hidden :
    listedScope.attributeAt? 1 = some (("[Scope( ['OnPrem'], 1)]" : Text), 3) ∧
      listedScope.attributeEndingAt? 3 ≠ some 1 ∧ listedScope.documentationAbove 4 = none ∧
      quotedBracket.attributeAt? 1 = some (("[Caption(' [Caption(')]" : Text), 2) ∧
      quotedBracket.attributeEndingAt? 2 = some 1 ∧ quotedBracket.documentationAbove 3 = none := by
  decide +kernel

end SourceFile

end DocAudit
