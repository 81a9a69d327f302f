import DocAudit.Command
import DocAudit.Proofs.Finding.Evaluation
import DocAudit.Proofs.PathOrder
import DocAudit.Proofs.Workspace.Batches

/-!
# What a check reports

A check prints the findings of the files on the disk. Between the two stands a cache, which could
lose a file, mix two of them up or change their order. It does none of this: sources are read in
the order of paths, no two of them have the same path, and so each new entry goes to the end.

* `Workspace.sources_pairwise_before`: the sources are in strict order.
* `Workspace.entries_scanAll`: the entries after a scan, in terms of the sources.
* `Workspace.evaluate_scanAll`: the findings after a scan.
* `Command.check_text`: what `check` prints and how it ends.
-/

namespace DocAudit

/-! ## Sources in order -/

theorem Disk.Tree.nodup_filesBelow {d : Disk} (ht : d.Tree) (directory : Names) :
    (d.filesBelow directory).Nodup := by
  have hnames : d.entries.Pairwise fun a b => a.1 ≠ b.1 := List.pairwise_map.1 ht.nodup
  refine hnames.filterMap _ ?_
  rintro ⟨key, entry⟩ ⟨key', entry'⟩ hne names hbelow names' hbelow' rfl
  cases entry with
  | directory => cases hbelow
  | file bytes =>
    cases entry' with
    | directory => cases hbelow'
    | file bytes' =>
      exact hne ((isPrefixOf?_eq_some_iff.1 hbelow).trans (isPrefixOf?_eq_some_iff.1 hbelow').symm)

namespace Workspace

variable {w : Workspace} {d : Disk}

/-- **The sources of a workspace are in order**, and no two have the same path. -/
theorem sources_pairwise_before (ht : d.Tree) :
    (w.sources d).Pairwise fun p q => p.before q = true := by
  rw [sources]
  cases d.locate? w.root with
  | none => exact List.Pairwise.nil
  | some directory =>
    apply Path.pairwise_before_mergeSort
    rw [List.pairwise_map]
    refine ((ht.nodup_filesBelow directory).filter _).imp_of_mem ?_
    intro names names' hmem hmem' hne
    have hplain := ht.plain_of_mem_filesBelow (List.mem_filter.1 hmem).1
    have hplain' := ht.plain_of_mem_filesBelow (List.mem_filter.1 hmem').1
    rw [← Bool.not_eq_true, Names.same_relativePath_iff hplain hplain']
    exact hne

end Workspace

/-! ## A cache filled in order -/

namespace Cache

variable {c : Cache} {path : Path}

theorem entries_insertAt_of_before (h : ∀ entry ∈ c.entries, entry.1.before path = true)
    (o : SourceObject) : (c.insertAt path o).entries = c.entries ++ [(path, o)] := by
  obtain ⟨entries⟩ := c
  rw [insertAt]
  simp only at h ⊢
  induction entries with
  | nil => rfl
  | cons entry rest ih =>
    have hlt := Path.before_iff.1 (h entry List.mem_cons_self)
    rw [insertEntry, if_neg (mt Path.same_iff_key.1 hlt.ne),
      if_neg (mt Path.before_iff.1 hlt.asymm), ih fun e he => h e (List.mem_cons_of_mem entry he)]
    rfl

theorem remove_of_before (h : ∀ entry ∈ c.entries, entry.1.before path = true) :
    c.remove path = c := by
  have hkeep : c.entries.filter (fun entry => !entry.1.same path) = c.entries := by
    refine List.filter_eq_self.2 fun entry he => ?_
    rw [Bool.not_eq_true', ← Bool.not_eq_true, Path.same_iff_key]
    exact (Path.before_iff.1 (h entry he)).ne
  rw [remove, hkeep]

end Cache

namespace Workspace

variable {w : Workspace} {d : Disk} {c : Cache} {path : Path} {paths : List Path}

/-- The entry of a file, if it declares an object. -/
def entryOf? (w : Workspace) (d : Disk) (path : Path) : Option (Path × SourceObject) :=
  (w.objectAt? d path).map (path, ·)

theorem entries_readInto (h : ∀ entry ∈ c.entries, entry.1.before path = true) :
    (w.readInto d c path).entries = c.entries ++ (w.entryOf? d path).toList := by
  rw [readInto, entryOf?]
  rcases analyze_cases w d path with ⟨failure, -, hr, ho⟩ | ⟨-, hr⟩
  · rw [hr, ho]
    exact (List.append_nil _).symm
  · rw [if_pos hr]
    cases w.objectAt? d path with
    | none =>
      rw [Cache.replace, Cache.remove_of_before h]
      exact (List.append_nil _).symm
    | some o => exact Cache.entries_insertAt_of_before h o

/-- Files read in order are entered in order. -/
theorem entries_foldl_readInto (hordered : paths.Pairwise fun p q => p.before q = true)
    (h : ∀ entry ∈ c.entries, ∀ path ∈ paths, entry.1.before path = true) :
    (paths.foldl (w.readInto d) c).entries = c.entries ++ paths.filterMap (w.entryOf? d) := by
  induction paths generalizing c with
  | nil => exact (List.append_nil _).symm
  | cons path paths ih =>
    obtain ⟨hfirst, hrest⟩ := List.pairwise_cons.1 hordered
    have hnow := entries_readInto (w := w) (d := d) fun entry he =>
      h entry he path List.mem_cons_self
    rw [List.foldl_cons, ih hrest, hnow, List.append_assoc, List.filterMap_cons]
    · cases w.entryOf? d path <;> rfl
    · intro entry he path' hp
      rw [hnow] at he
      rcases List.mem_append.1 he with hold | hnew
      · exact h entry hold path' (List.mem_cons_of_mem path hp)
      · obtain ⟨o, -, rfl⟩ := Option.map_eq_some_iff.1 (Option.mem_toList.1 hnew)
        exact hfirst path' hp

/-- **After a scan the cache holds the objects of the sources**, in their order. -/
theorem entries_scanAll (ht : d.Tree) :
    (w.scanAll d).cache.entries = (w.sources d).filterMap (w.entryOf? d) := by
  rw [scanAll_eq, cache_scanFiles, entries_foldl_readInto (sources_pairwise_before ht)
    fun entry he => absurd he List.not_mem_nil]
  rfl

/-- The findings of the file at a path; none if it cannot be read or declares no object. -/
def findingsAt (w : Workspace) (d : Disk) (path : Path) : List Finding :=
  match readSource d w.root path with
  | .ok f => (f.object? w.config.settings).toList.flatMap (·.evaluate w.config.settings)
  | .error _ => []

theorem findingsAt_eq (w : Workspace) (d : Disk) (path : Path) :
    w.findingsAt d path = (w.objectAt? d path).toList.flatMap (·.evaluate w.config.settings) := by
  rw [findingsAt, objectAt?, analyze]
  cases readSource d w.root path <;> rfl

/-- The findings after a scan are those of the sources, one after the other. -/
theorem evaluate_scanAll (ht : d.Tree) :
    (w.scanAll d).cache.evaluate w.config.settings = (w.sources d).flatMap (w.findingsAt d) := by
  have hobjects : (w.scanAll d).cache.objects = (w.sources d).filterMap (w.objectAt? d) := by
    rw [Cache.objects, entries_scanAll ht, List.map_filterMap]
    refine List.filterMap_congr fun path _ => ?_
    rw [entryOf?, Option.map_map]
    exact Option.map_id'
  rw [Cache.evaluate, hobjects, List.filterMap_eq_flatMap_toList, List.flatMap_assoc,
    ← funext (findingsAt_eq w d)]

end Workspace

/-! ## Findings and their files -/

theorem SourceObject.file_of_mem_evaluate {o : SourceObject} {s : Settings} {f : Finding}
    (h : f ∈ o.evaluate s) : f.file = o.file := by
  rw [evaluate_eq] at h
  obtain ⟨d, -, hd⟩ := List.mem_filterMap.1 h
  exact (reports_of_finding? hd).file

theorem Workspace.file_of_mem_findingsAt {w : Workspace} {d : Disk} {path : Path} {f : Finding}
    (h : f ∈ w.findingsAt d path) : f.file = path := by
  rw [findingsAt_eq] at h
  obtain ⟨o, ho, hf⟩ := List.mem_flatMap.1 h
  rw [Option.mem_toList] at ho
  rcases analyze_cases w d path with ⟨failure, -, -, hnone⟩ | ⟨hfound, -⟩
  · rw [hnone] at ho
    cases ho
  · rw [ho] at hfound
    exact (SourceObject.file_of_mem_evaluate hf).trans (file_of_analyze hfound)

/-! ## The command -/

/-- **A check prints every finding of every source once**, file after file in the order of paths,
and ends with one if there are any. -/
theorem Command.check_text {d : Disk} {w : Workspace} (ht : d.Tree) (hw : workspace d = .ok w) :
    let findings := (w.sources d).flatMap (w.findingsAt d)
    (check d .text).stdout = printLines (findings.map Finding.line) ∧
      (check d .text).result = .ok (if findings = [] then 0 else 1) ∧
      ((w.sources d).Pairwise fun p q => p.before q = true) ∧
      (∀ path, ∀ f ∈ w.findingsAt d path, f.file = path) ∧
      ∀ size, (w.withBatchSize size).scanAll d = w.scanAll d := by
  intro findings
  have hcheck : check d .text =
      { stdout := report .text findings
        stderr := checkSummary w (w.scanAll d) findings
        result := .ok (if findings.isEmpty then 0 else 1) } := by
    rw [check, hw]
    simp only [Answer.of, Workspace.evaluate_scanAll ht, findings]
  refine ⟨?_, ?_, Workspace.sources_pairwise_before ht,
    fun path f hf => Workspace.file_of_mem_findingsAt hf, fun size => ?_⟩
  · rw [hcheck]
    rfl
  · rw [hcheck]
    simp only [List.isEmpty_iff]
  · exact Workspace.scan_withBatchSize (fun _ => rfl) size {}

/-- A workspace of three files, two of which declare undocumented objects. -/
def threeFiles : Disk where
  entries := [(["app.json"], .file "".toUTF8), (["C.al"], .file "".toUTF8),
    (["a"], .directory), (["a", "A.al"], .file "codeunit 1 A".toUTF8),
    (["a-b.al"], .file "codeunit 2 B".toUTF8)]

theorem tree_threeFiles : threeFiles.Tree := by
  refine ⟨by decide, by decide, fun entry he => ?_⟩
  simp only [threeFiles, List.mem_cons, List.not_mem_nil, or_false] at he
  rcases he with rfl | rfl | rfl | rfl | rfl <;> rfl

/-- The workspace in the root directory, configured by nothing. -/
def rootWorkspace : Workspace := { root := ⟨"/"⟩, config := {} }

theorem sources_threeFiles :
    rootWorkspace.sources threeFiles = [⟨"C.al"⟩, ⟨"a/A.al"⟩, ⟨"a-b.al"⟩] := by
  have hordered : [⟨"C.al"⟩, ⟨"a/A.al"⟩, ⟨"a-b.al"⟩].Pairwise fun p q : Path => !q.before p := by
    decide
  exact List.mergeSort_of_pairwise hordered

/-- Paths are in the order of their components: a directory comes before a file whose name goes on
where that of the directory ends. -/
theorem Command.check_text_threeFiles :
    threeFiles.Tree ∧ workspace threeFiles = .ok rootWorkspace ∧
      (check threeFiles .text).stdout =
        printLines
          ["a/A.al:1:1: information[DOC0001] Documentation for codeunit 'A' is missing.",
            "a-b.al:1:1: information[DOC0001] Documentation for codeunit 'B' is missing."] ∧
      (check threeFiles .text).result = .ok 1 := by
  have hw : workspace threeFiles = .ok rootWorkspace := by decide +kernel
  obtain ⟨hstdout, hresult, -⟩ := check_text tree_threeFiles hw
  refine ⟨tree_threeFiles, hw, ?_, ?_⟩
  · rw [hstdout, sources_threeFiles]
    decide +kernel
  · rw [hresult, sources_threeFiles]
    decide +kernel

end DocAudit
