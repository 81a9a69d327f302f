import DocAudit.Proofs.Source.Subset
import DocAudit.Proofs.Source.WrittenObject

/-!
# The targets of a relation

The names in a relation are separated by commas, and a quoted name may hold a comma.

    codeunit 50100 Sales implements "ISales, Handler", ILog {

The splitter at the commas knows quotes. The reader before it, which finds where the target text
ends, does not: it stops at the first brace of the line, and a name that holds a brace is cut there.

* `Relation.targets_eq`: no piece is lost because all are blank.
* `WrittenRelation.targets_clause_iff`: the names are read back unless one holds a brace.
* `ObjectHeader.targets_writtenObject_iff`: the same of a whole header.
-/

namespace DocAudit

/-! ## Pieces and names -/

section Unquote

variable {t blanks : Text}

theorem unquote_append_blanks (hb : allBlank blanks = true) (t : Text) :
    unquote (t ++ blanks) = unquote t := by
  rw [unquote, trim_append_allBlank hb, unquote]

theorem unquote_blanks_append (hb : allBlank blanks = true) (t : Text) :
    unquote (blanks ++ t) = unquote t := by
  have htrim : trim (blanks ++ t) = trim t := by rw [trim, trimLeft_blanks_append hb, trim]
  rw [unquote, htrim, unquote]

theorem unquote_of_allBlank (h : allBlank t = true) : unquote t = [] := by
  rw [unquote, trim_eq_nil h]
  rfl

end Unquote

/-- The targets are the names in all pieces of the target text: pieces that are all blank hold no
name. -/
theorem Relation.targets_eq (r : Relation) :
    r.targets = ((pieces ',' .outside 0 r.target).map unquote).filter (!·.isEmpty) := by
  rw [targets, splitTopLevel]
  split
  · next hblank =>
    symm
    rw [List.map_nil, List.filter_nil, List.filter_eq_nil_iff]
    intro name hname
    obtain ⟨piece, hpiece, rfl⟩ := List.mem_map.1 hname
    rw [unquote_of_allBlank (List.all_eq_true.1 hblank piece hpiece)]
    exact Bool.false_ne_true
  · rfl

theorem Relation.subset_of_mem_targets {r : Relation} {name : Text} (h : name ∈ r.targets) :
    name ⊆ r.target := by
  obtain ⟨piece, hpiece, rfl⟩ := List.mem_map.1 (List.mem_of_mem_filter h)
  exact fun c hc => splitTopLevel_subset hpiece (unquote_subset piece hc)

namespace WrittenName

variable (n : WrittenName)

theorem value_ne_nil : n.value ≠ [] := by
  cases n with
  | identifier t h =>
    rintro rfl
    cases h
  | quoted t hne hline => exact hne

theorem mem_value_of_mem_written {c : Char} (hc : c ≠ '"') (h : c ∈ n.written) : c ∈ n.value := by
  cases n with
  | identifier t _ => exact h
  | quoted t hne hline =>
    rw [written, List.mem_cons, List.mem_append, List.mem_singleton] at h
    exact mem_of_mem_doubleQuotes ((h.resolve_left hc).resolve_right hc)

end WrittenName

/-! ## Written relations -/

/-- The pieces of a list of names are its names, with blanks around them. -/
theorem map_unquote_pieces (others : List FurtherName) {first : Text} (hpassable : Passable first)
    (hhides : ({} : Nesting).Hides ',' first) :
    (pieces ',' .outside 0 (first ++ others.flatMap FurtherName.written)).map unquote =
      unquote first :: others.map (·.name.value) := by
  induction others generalizing first with
  | nil =>
    rw [List.flatMap_nil, List.append_nil, pieces_of_passable hpassable hhides]
    rfl
  | cons n others ih =>
    -- The comma of `n` ends the first piece, and what follows the comma starts the next one.
    have hfirst : Passable (first ++ n.beforeComma.text) :=
      hpassable.append n.beforeComma.inert.passable n.beforeComma.inert.head
    have hfirstHides : ({} : Nesting).Hides ',' (first ++ n.beforeComma.text) :=
      hhides.append hpassable.after?_eq (Nesting.hides_of_not_mem (n.beforeComma.not_mem rfl))
    have hnext : Inert (n.afterComma.text ++ n.name.written) :=
      n.afterComma.inert.append n.name.inert_written
    have hnextHides : ({} : Nesting).Hides ',' (n.afterComma.text ++ n.name.written) :=
      (Nesting.hides_of_not_mem (n.afterComma.not_mem rfl)).append
        n.afterComma.inert.passable.after?_eq (n.name.hides_written rfl rfl)
    have hsplit : first ++ (n :: others).flatMap FurtherName.written =
        (first ++ n.beforeComma.text) ++
          ',' :: ((n.afterComma.text ++ n.name.written) ++ others.flatMap FurtherName.written) := by
      rw [List.flatMap_cons, FurtherName.written]
      simp only [List.append_assoc, List.cons_append]
    rw [hsplit, pieces_append_of_passable hfirst hfirstHides rfl, List.map_cons,
      ih hnext.passable hnextHides, unquote_append_blanks n.beforeComma.blank,
      unquote_blanks_append n.afterComma.blank, n.name.unquote_written, List.map_cons]

theorem Trimmed.append_names {first : Text} (h : Trimmed first) (others : List FurtherName) :
    Trimmed (first ++ others.flatMap FurtherName.written) := by
  induction others generalizing first with
  | nil => rwa [List.flatMap_nil, List.append_nil]
  | cons n others ih =>
    have hnext := ih
      (h.append (n.beforeComma.text ++ ',' :: n.afterComma.text) n.name.trimmed_written)
    rw [List.flatMap_cons, FurtherName.written]
    simpa only [List.append_assoc, List.cons_append] using hnext

namespace WrittenRelation

variable (r : WrittenRelation)

theorem not_mem_targetsText (hplain : ∀ n ∈ r.names, '{' ∉ n.value) : '{' ∉ r.targetsText := by
  intro hmem
  rcases r.of_mem_targetsText hmem with ⟨n, hn, hmem⟩ | hcomma | ⟨hblank, -⟩
  · exact hplain n hn (n.mem_value_of_mem_written (by decide) hmem)
  · cases hcomma
  · cases hblank

/-- **The targets of a relation are the names that were written exactly when no name holds a
brace**, whatever else they hold. -/
theorem targets_clause_iff :
    r.clause.targets = r.names.map WrittenName.value ↔ ∀ n ∈ r.names, '{' ∉ n.value := by
  constructor
  · intro htargets n hn hbrace
    have hname : n.value ∈ r.clause.targets := by
      rw [htargets]
      exact List.mem_map_of_mem hn
    have hcut := trim_subset _ (Relation.subset_of_mem_targets hname hbrace)
    have hkept : decide ('{' ≠ '{') = true := @List.mem_takeWhile_imp _ (· ≠ '{') _ _ hcut
    exact absurd hkept (by decide)
  · intro hplain
    have hwhole : r.targetsText.takeWhile (· ≠ '{') = r.targetsText :=
      List.takeWhile_eq_self_iff.2 fun c hc =>
        decide_eq_true fun hbrace => r.not_mem_targetsText hplain (hbrace ▸ hc)
    have hfilter : ∀ name ∈ r.names.map WrittenName.value, (!name.isEmpty) = true := by
      intro name hname
      obtain ⟨n, -, rfl⟩ := List.mem_map.1 hname
      rw [Bool.not_eq_true', Bool.eq_false_iff, Ne, List.isEmpty_iff]
      exact n.value_ne_nil
    have hpieces := map_unquote_pieces r.others r.first.passable_written
      (r.first.hides_written (d := ',') rfl rfl)
    have hnames : r.first.value :: r.others.map (·.name.value) = r.names.map WrittenName.value := by
      rw [names, List.map_cons, List.map_map]
      rfl
    have htrimmed : Trimmed r.targetsText := r.first.trimmed_written.append_names r.others
    rw [r.first.unquote_written, hnames] at hpieces
    rw [Relation.targets_eq, clause, hwhole, htrimmed.trim_eq]
    exact (congrArg _ hpieces).trans (List.filter_eq_self.2 hfilter)

end WrittenRelation

/-! ## Whole headers -/

/-- **A header with a relation is read with that relation, and its targets are the names that were
written exactly when no name holds a brace.** -/
theorem ObjectHeader.targets_writtenObject_iff (h : WrittenObject) (r : WrittenRelation)
    (hr : h.relation = some r) :
    ∃ header relation, ObjectHeader.read? h.written = some header ∧
      header.relation = some relation ∧ relation.kind = r.kind ∧
      (relation.targets = r.names.map WrittenName.value ↔ ∀ n ∈ r.names, '{' ∉ n.value) := by
  refine ⟨h.header, r.clause, ObjectHeader.read?_written h, ?_, rfl, r.targets_clause_iff⟩
  rw [WrittenObject.header, hr, Option.map_some]

/-- One space. -/
def Gap.space : Gap where
  text := " "
  blank := by decide
  oneLine := by decide
  ne_nil := by decide

namespace WrittenObject

/-- `codeunit 1 A implements` and some names. -/
def implementing (first : WrittenName) (others : List FurtherName) : WrittenObject where
  indent := ⟨[], rfl, List.not_mem_nil⟩
  keyword := "codeunit"
  keyword_start := by decide
  keyword_chars := by decide
  keyword_ne := by decide
  gap := .space
  number := some ⟨1, by decide, .space⟩
  name := .identifier "A" (by decide)
  relation := some ⟨.space, .implementing, "implements", by decide, .space, first, others⟩
  brace := none
  comment := none

/-- Two names that hold what ends names elsewhere. -/
def awkwardNames : WrittenObject :=
  implementing (.quoted "I, // (x'" (by decide) (by decide))
    [⟨Gap.space.toBlanks, Gap.space.toBlanks, .quoted "\"" (by decide) (by decide)⟩]

/-- The name of an interface that holds a brace. -/
def braceName : WrittenObject := implementing (.quoted "I\x7bx" (by decide) (by decide)) []

end WrittenObject

/-- Commas, slashes, quotes and parentheses in a name do not matter. -/
theorem ObjectHeader.targets_awkwardNames :
    ∃ header relation,
      ObjectHeader.read? "codeunit 1 A implements \"I, // (x'\" , \"\"\"\"" = some header ∧
      header.relation = some relation ∧ relation.targets = ["I, // (x'", "\""] := by
  have hwritten : WrittenObject.awkwardNames.written =
      "codeunit 1 A implements \"I, // (x'\" , \"\"\"\"" := by decide +kernel
  obtain ⟨header, relation, hread, hrelation, -, htargets⟩ :=
    targets_writtenObject_iff .awkwardNames _ rfl
  rw [hwritten] at hread
  exact ⟨header, relation, hread, hrelation, htargets.2 (by decide)⟩

/-- A name that holds a brace is cut there and keeps its opening quote. -/
theorem ObjectHeader.not_forall_targets_eq :
    ¬ ∀ (h : WrittenObject) (r : WrittenRelation), h.relation = some r →
      ∃ header relation, ObjectHeader.read? h.written = some header ∧
        header.relation = some relation ∧ relation.targets = r.names.map WrittenName.value := by
  intro hall
  have hwritten : WrittenObject.braceName.written = "codeunit 1 A implements \"I\x7bx\"" := by
    decide +kernel
  have hcut : ObjectHeader.read? "codeunit 1 A implements \"I\x7bx\"" =
      some ⟨"codeunit", some 1, "A", some ⟨.implementing, "\"I"⟩⟩ := by decide +kernel
  obtain ⟨header, relation, hread, hrelation, htargets⟩ := hall .braceName _ rfl
  rw [hwritten, hcut] at hread
  cases hread
  cases hrelation
  revert htargets
  decide

end DocAudit
