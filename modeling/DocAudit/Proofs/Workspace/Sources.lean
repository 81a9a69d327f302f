import DocAudit.Proofs.CacheRun
import DocAudit.Proofs.Text
import DocAudit.Proofs.Workspace.Check

/-!
# Which files are sources

The sources of a workspace are told by their names: every name from the root on must be visible and
the last must end like a source file. A walk that goes down from the root and never enters a hidden
directory meets the files with visible names and no others, so nothing below a hidden directory can
be a source and nothing below a visible one is missed.

* `Disk.Meets`: the files that such a walk meets.
* `Disk.Tree.meets_iff`: they are the files with visible names.
* `isSourcePath_relativePath_iff`: the names of source files.
* `Workspace.mem_sources_iff_meets`: the sources, which are in order.
-/

namespace DocAudit

/-! ## Walking down -/

namespace Disk

variable {d : Disk} {here names : Names}

/-- From a directory a walk meets its visible files, and those it meets from each of its visible
directories. -/
inductive Meets (d : Disk) : Names → Names → Prop
  | file {here : Names} {name : Text} {bytes : ByteArray} (hvisible : name.head? ≠ some '.')
      (hentry : d.entryAt? (here ++ [name]) = some (.file bytes)) : Meets d here [name]
  | inside {here : Names} {name : Text} {names : Names} (hvisible : name.head? ≠ some '.')
      (hentry : d.entryAt? (here ++ [name]) = some .directory)
      (hmeets : Meets d (here ++ [name]) names) : Meets d here (name :: names)

/-- **A walk meets the files whose names are all visible.** -/
theorem Tree.meets_iff (ht : d.Tree) :
    d.Meets here names ↔ names ≠ [] ∧ (∃ bytes, d.entryAt? (here ++ names) = some (.file bytes)) ∧
      ∀ name ∈ names, name.head? ≠ some '.' := by
  constructor
  · intro h
    induction h with
    | file hvisible hentry =>
      exact ⟨List.cons_ne_nil _ _, ⟨_, hentry⟩, by simpa using hvisible⟩
    | @inside here name names hvisible _ _ ih =>
      obtain ⟨-, ⟨bytes, hfile⟩, hrest⟩ := ih
      rw [List.append_assoc, List.singleton_append] at hfile
      exact ⟨List.cons_ne_nil _ _, ⟨bytes, hfile⟩, List.forall_mem_cons.2 ⟨hvisible, hrest⟩⟩
  · rintro ⟨hne, ⟨bytes, hfile⟩, hvisible⟩
    induction names generalizing here with
    | nil => exact absurd rfl hne
    | cons name names ih =>
      obtain ⟨hname, hnames⟩ := List.forall_mem_cons.1 hvisible
      by_cases hlast : names = []
      · subst hlast
        exact .file hname hfile
      · -- What a file stands below is a directory, and the walk enters it.
        rw [← List.singleton_append, ← List.append_assoc] at hfile
        exact .inside hname (ht.entryAt?_directory hlast hfile) (ih hlast hnames hfile)

end Disk

/-! ## Names of source files -/

theorem splitLast_of_last {q : Char → Bool} {c : Char} {before after : Text} (hc : q c = true)
    (hafter : ∀ d ∈ after, ¬ q d = true) :
    splitLast q (before ++ c :: after) = some (before, after) := by
  induction before with
  | nil => rw [List.nil_append, splitLast, splitLast_eq_none_iff.2 hafter, if_pos hc]
  | cons d before ih => rw [List.cons_append, splitLast, ih]

theorem not_mem_of_lower_eq {ending : Text} (h : lower ending = sourceEnding) : '.' ∉ ending := by
  intro hmem
  have hdot : '.' ∈ lower ending := List.mem_map.2 ⟨'.', hmem, rfl⟩
  rw [h] at hdot
  revert hdot
  decide

theorem fileName?_relativePath {names : Names} (hp : Plain names) :
    names.relativePath.fileName? = names.getLast? := by
  rw [Path.fileName?, Names.relativePath_eq, Path.components_intercalate hp, List.getLast?_map]
  cases names.getLast? <;> rfl

/-- **A source file is one whose name goes on after its start with a point and `al`**, in any
case. -/
theorem isSourcePath_relativePath_iff {names : Names} (hp : Plain names) :
    isSourcePath names.relativePath = true ↔ ∃ above stem ending,
      names = above ++ [stem ++ '.' :: ending] ∧ stem ≠ [] ∧ lower ending = sourceEnding := by
  simp only [isSourcePath, Path.extension?, fileName?_relativePath hp, Option.any_eq_true,
    Option.bind_eq_bind, Option.bind_eq_some_iff, List.getLast?_eq_some_iff]
  constructor
  · rintro ⟨ending, ⟨name, ⟨above, rfl⟩, ⟨stem, ending'⟩, hcut, hstem⟩, hword⟩
    obtain ⟨c, rfl, hc, -⟩ := splitLast_eq_some hcut
    obtain rfl : c = '.' := of_decide_eq_true hc
    cases stem with
    | nil => cases hstem
    | cons a stem =>
      cases hstem
      exact ⟨above, a :: stem, _, rfl, List.cons_ne_nil _ _, (sameWord_iff.1 hword).symm⟩
  · rintro ⟨above, stem, ending, rfl, hstem, hending⟩
    refine ⟨ending, ⟨_, ⟨above, rfl⟩, (stem, ending), splitLast_of_last (by rfl) ?_, ?_⟩, ?_⟩
    · intro c hmem hc
      exact not_mem_of_lower_eq hending (of_decide_eq_true hc ▸ hmem)
    · rw [List.isEmpty_eq_false_iff.2 hstem]
      rfl
    · exact sameWord_iff.2 hending.symm

/-! ## Starts of paths -/

theorem Config.accepts_iff {c : Config} {path : Text} :
    c.accepts path = true ↔
      (c.included = [] ∨ ∃ start ∈ c.included, start <+: path) ∧
        ∀ start ∈ c.excluded, ¬ start <+: path := by
  simp only [accepts, Bool.and_eq_true, Bool.or_eq_true, List.isEmpty_iff, List.any_eq_true,
    List.isPrefixOf_iff_prefix, Bool.not_eq_true', List.any_eq_false]

/-! ## Sources -/

namespace Workspace

variable {w : Workspace} {d : Disk} {root names : Names}

/-- A file is a source by its names: all are visible, and the last ends like a source file. -/
theorem isSource_iff (hp : Plain names) :
    w.isSource names = true ↔ (∀ name ∈ names, name.head? ≠ some '.') ∧
      (∃ above stem ending, names = above ++ [stem ++ '.' :: ending] ∧
        lower ending = sourceEnding) ∧
      w.config.accepts names.relativePath.text = true := by
  simp only [isSource, Bool.and_eq_true, List.all_eq_true, bne_iff_ne, and_assoc,
    isSourcePath_relativePath_iff hp]
  refine and_congr_right fun hvisible => and_congr_left fun _ => ?_
  constructor
  · rintro ⟨above, stem, ending, hnames, -, hending⟩
    exact ⟨above, stem, ending, hnames, hending⟩
  · rintro ⟨above, stem, ending, rfl, hending⟩
    refine ⟨above, stem, ending, rfl, ?_, hending⟩
    -- A name with nothing before its point would be hidden.
    rintro rfl
    exact hvisible _ (List.mem_append_right above List.mem_cons_self) rfl

/-- **The sources of a workspace are the files that a walk meets from its root on**, never entering
a hidden directory, whose names end in a point and `al` and whose paths the configuration takes.
They come in the strict order of their components, so that none of them comes twice. -/
theorem mem_sources_iff_meets (ht : d.Tree) (hroot : d.locate? w.root = some root) :
    ((w.sources d).Pairwise fun p q => p.before q = true) ∧ (w.sources d).Nodup ∧
      (∀ path, path ∈ w.sources d ↔ ∃ names, path = names.relativePath ∧ d.Meets root names ∧
        (∃ above stem ending, names = above ++ [stem ++ '.' :: ending] ∧ lower ending = "al") ∧
        (w.config.included = [] ∨ ∃ start ∈ w.config.included, start <+: path.text) ∧
        ∀ start ∈ w.config.excluded, ¬ start <+: path.text) ∧
      ∀ names, d.Meets root names ↔
        names ≠ [] ∧ (∃ bytes, d.entryAt? (root ++ names) = some (.file bytes)) ∧
          ∀ name ∈ names, name.head? ≠ some '.' := by
  have hordered := sources_pairwise_before (w := w) ht
  refine ⟨hordered, ?_, fun path => ?_, fun names => ht.meets_iff⟩
  · refine hordered.imp fun {p q} hpq heq => ?_
    subst heq
    exact Path.not_same_of_before hpq (Path.same_refl p)
  · rw [mem_sources_iff hroot]
    constructor
    · rintro ⟨names, hmem, hsource, rfl⟩
      obtain ⟨hvisible, hending, haccepts⟩ :=
        (isSource_iff (ht.plain_of_mem_filesBelow hmem)).1 hsource
      have hne : names ≠ [] := by
        obtain ⟨above, stem, ending, rfl, -⟩ := hending
        exact List.append_ne_nil_of_right_ne_nil above (List.cons_ne_nil _ _)
      exact ⟨names, rfl, ht.meets_iff.2 ⟨hne, (ht.mem_filesBelow_iff hne).1 hmem, hvisible⟩,
        hending, Config.accepts_iff.1 haccepts⟩
    · rintro ⟨names, rfl, hmeets, hending, haccepts⟩
      obtain ⟨hne, hfile, hvisible⟩ := ht.meets_iff.1 hmeets
      have hmem := (ht.mem_filesBelow_iff hne).2 hfile
      exact ⟨names, hmem, (isSource_iff (ht.plain_of_mem_filesBelow hmem)).2
        ⟨hvisible, hending, Config.accepts_iff.2 haccepts⟩, rfl⟩

/-- Two sources, of which one stands in a directory that is named like a source, a hidden file, a
file in a hidden directory, and a file that is excluded. -/
def guardedFiles : Disk where
  entries := [(["src"], .directory), (["src", "A.AL"], .file "codeunit 1 A".toUTF8),
    (["src", ".al"], .file "".toUTF8), (["src", ".git"], .directory),
    (["src", ".git", "B.al"], .file "codeunit 2 B".toUTF8), (["src", "C.al"], .directory),
    (["src", "C.al", "D.al"], .file "codeunit 4 D".toUTF8), (["src-b.al"], .file "".toUTF8)]

theorem tree_guardedFiles : guardedFiles.Tree := by
  refine ⟨by decide, by decide, fun entry he => ?_⟩
  simp only [guardedFiles, List.mem_cons, List.not_mem_nil, or_false] at he
  rcases he with rfl | rfl | rfl | rfl | rfl | rfl | rfl | rfl <;> rfl

/-- A workspace in the root directory that leaves out what starts with `src-`. -/
def guardedWorkspace : Workspace := { root := ⟨"/"⟩, config := { excluded := ["src-"] } }

/-- The walk meets a source in the directory that is named like one, and nothing in the hidden
directory. -/
theorem mem_sources_iff_meets_guardedFiles :
    guardedFiles.Tree ∧ guardedFiles.locate? guardedWorkspace.root = some [] ∧
      ⟨"src/C.al/D.al"⟩ ∈ guardedWorkspace.sources guardedFiles ∧
      ¬ guardedFiles.Meets [] ["src", ".git", "B.al"] ∧
      guardedWorkspace.sources guardedFiles = [⟨"src/A.AL"⟩, ⟨"src/C.al/D.al"⟩] := by
  have hroot : guardedFiles.locate? guardedWorkspace.root = some [] := rfl
  obtain ⟨-, -, hmem, hmeets⟩ := mem_sources_iff_meets tree_guardedFiles hroot
  refine ⟨tree_guardedFiles, hroot, (hmem _).2 ⟨["src", "C.al", "D.al"], rfl, ?_, ?_, ?_⟩, ?_, ?_⟩
  · exact .inside (by decide) rfl (.inside (by decide) rfl (.file (by decide) rfl))
  · exact ⟨["src", "C.al"], "D", "al", rfl, rfl⟩
  · exact ⟨Or.inl rfl, by decide⟩
  · intro h
    exact ((hmeets _).1 h).2.2 ".git" (by decide) rfl
  · have hordered : [⟨"src/A.AL"⟩, ⟨"src/C.al/D.al"⟩].Pairwise fun p q : Path => !q.before p := by
      decide
    exact List.mergeSort_of_pairwise hordered

end Workspace

end DocAudit
