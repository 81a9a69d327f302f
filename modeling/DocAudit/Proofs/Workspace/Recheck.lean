import DocAudit.Proofs.Workspace.Scan

/-!
# Reading changed files again

After some source files have changed, reading them again should leave the cache as a new scan would
fill it. It does so with two exceptions, which `get?_recheck_eq_scanAll_iff` makes exact.

* `Workspace.refreshed`: what reading a file again leaves at its path.
* `SourceChange`: some source files of a workspace have changed, and nothing else.
* `Workspace.get?_recheck`: the cache after some files were read again.
-/

namespace DocAudit

namespace Workspace

variable {w : Workspace} {d : Disk}

/-- What reading a file again leaves at its path, where the cache held `old`. -/
def refreshed (w : Workspace) (d : Disk) (path : Path) (old : Option SourceObject) :
    Option SourceObject :=
  match analyze d w.root path w.config.settings with
  | .ok object => object
  | .error (.fileNotFound _) => none
  | .error _ => old

theorem refreshed_refreshed (w : Workspace) (d : Disk) (path : Path) (old : Option SourceObject) :
    w.refreshed d path (w.refreshed d path old) = w.refreshed d path old := by
  unfold refreshed
  cases analyze d w.root path w.config.settings with
  | ok object => rfl
  | error failure => cases failure <;> rfl

theorem get?_refresh {c : Cache} {path q : Path} :
    (match w.refresh d c path with
      | .ok c => c
      | .error _ => c).get? q =
      if path.same q then w.refreshed d path (c.get? q) else c.get? q := by
  unfold refresh refreshed
  cases analyze d w.root path w.config.settings with
  | ok object => exact Cache.get?_replace c path object q
  | error failure =>
    cases failure with
    | fileNotFound p => exact Cache.get?_remove c path q
    | _ => exact (ite_self _).symm

/-- Reading a changed file again shows at its path only, and only if the file is one to scan. -/
theorem get?_recheckFile {c : Cache} {names : Names} (hp : Plain names) (hne : names ≠ [])
    (q : Path) :
    (w.recheckFile d c (w.root.join names.relativePath)).1.get? q =
      if w.config.accepts names.relativePath.text = true ∧ names.relativePath.same q = true then
        w.refreshed d names.relativePath (c.get? q)
      else c.get? q := by
  rw [recheckFile, Names.relativePath_eq, Path.relativeTo?_join w.root hp hne,
    ← Names.relativePath_eq]
  simp only [Option.getD_some]
  by_cases ha : w.config.accepts names.relativePath.text = true
  · rw [if_pos ha]
    simp only [ha, true_and]
    rw [← get?_refresh]
    cases w.refresh d c names.relativePath with
    | ok c' => rfl
    | error failure => rfl
  · rw [if_neg ha, if_neg fun h => ha h.1]

theorem recheck_cons (c : Cache) (path : Path) (paths : List Path) :
    (w.recheck d c (path :: paths)).1 = (w.recheck d (w.recheckFile d c path).1 paths).1 := rfl

theorem get?_recheck_of_not_same {c : Cache} {changed : List Names} {q : Path}
    (hp : ∀ names ∈ changed, Plain names ∧ names ≠ [])
    (hq : ∀ names ∈ changed, ¬ names.relativePath.same q = true) :
    (w.recheck d c (changed.map fun names => w.root.join names.relativePath)).1.get? q =
      c.get? q := by
  induction changed generalizing c with
  | nil => rfl
  | cons names changed ih =>
    obtain ⟨hplain, hne⟩ := hp names List.mem_cons_self
    rw [List.map_cons, recheck_cons, ih (fun n hn => hp n (List.mem_cons_of_mem names hn))
      (fun n hn => hq n (List.mem_cons_of_mem names hn)), get?_recheckFile hplain hne,
      if_neg fun h => hq names List.mem_cons_self h.2]

/-- **Files read again**, in any order and any number of times: each ends up as if it alone had
been read. -/
theorem get?_recheck {c : Cache} {changed : List Names} {names : Names} (hplain : Plain names)
    (hp : ∀ names ∈ changed, Plain names ∧ names ≠ []) :
    (w.recheck d c (changed.map fun names => w.root.join names.relativePath)).1.get?
        names.relativePath =
      if names ∈ changed ∧ w.config.accepts names.relativePath.text = true then
        w.refreshed d names.relativePath (c.get? names.relativePath)
      else c.get? names.relativePath := by
  induction changed generalizing c with
  | nil => rw [if_neg fun h => List.not_mem_nil h.1]; rfl
  | cons first changed ih =>
    obtain ⟨hfirst, hne⟩ := hp first List.mem_cons_self
    rw [List.map_cons, recheck_cons, ih fun n hn => hp n (List.mem_cons_of_mem first hn)]
    have hfile := get?_recheckFile (w := w) (d := d) (c := c) hfirst hne names.relativePath
    by_cases heq : first = names
    · subst heq
      by_cases ha : w.config.accepts first.relativePath.text = true
      · rw [if_pos ⟨ha, Path.same_refl _⟩] at hfile
        rw [hfile, refreshed_refreshed, ite_self, if_pos ⟨List.mem_cons_self, ha⟩]
      · rw [hfile, if_neg fun h => ha h.2, if_neg fun h => ha h.1, if_neg fun h => ha h.2]
    · have hsame : ¬ first.relativePath.same names.relativePath = true := fun h =>
        heq ((Names.same_relativePath_iff hfirst hplain).1 h)
      rw [if_neg fun h => hsame h.2] at hfile
      have hmem : names ∈ first :: changed ↔ names ∈ changed :=
        ⟨fun h => (List.mem_cons.1 h).resolve_left (Ne.symm heq), List.mem_cons_of_mem first⟩
      simp only [hfile, hmem]

end Workspace

/-! ## A change of source files -/

/-- Some source files below the root of a workspace have changed and nothing else has. After the
change each of them is a text or gone. -/
structure SourceChange (w : Workspace) (before after : Disk) (root : Names)
    (changed : List Names) : Prop where
  before_tree : before.Tree
  after_tree : after.Tree
  before_root : before.locate? w.root = some root
  after_root : after.locate? w.root = some root
  elsewhere : ∀ names, names ∉ changed →
    Disk.sameContent (before.entryAt? (root ++ names)) (after.entryAt? (root ++ names)) = true
  plain : ∀ names ∈ changed, Plain names
  source : ∀ names ∈ changed, isSourcePath names.relativePath = true
  readable : ∀ names ∈ changed, after.entryAt? (root ++ names) = none ∨
    ∃ bytes t, after.entryAt? (root ++ names) = some (.file bytes) ∧
      Disk.contentOf (.file bytes) = .text t

/-- Whether a file stands in a hidden directory or is hidden itself. -/
def Names.isHidden (names : Names) : Bool := names.any fun name => name.head? == some '.'

namespace SourceChange

variable {w : Workspace} {before after : Disk} {root names : Names} {changed : List Names}

theorem ne_nil (h : SourceChange w before after root changed) (hmem : names ∈ changed) :
    names ≠ [] := Workspace.ne_nil_of_isSourcePath (h.source names hmem)

theorem isSource_eq (h : SourceChange w before after root changed) (hmem : names ∈ changed) :
    w.isSource names = (!names.isHidden && w.config.accepts names.relativePath.text) := by
  have hhidden : (names.all fun name => name.head? != some '.') = !names.isHidden := by
    rw [Names.isHidden, List.not_any_eq_all_not]
    rfl
  rw [Workspace.isSource, h.source names hmem, hhidden, Bool.and_true]

theorem objectAt?_eq (h : SourceChange w before after root changed) (hmem : names ∉ changed)
    (hp : Plain names) (hne : names ≠ []) :
    w.objectAt? before names.relativePath = w.objectAt? after names.relativePath := by
  have hsame := Disk.sameContent_iff.1 (h.elsewhere names hmem)
  by_cases hfile : ∃ bytes, before.entryAt? (root ++ names) = some (.file bytes)
  · obtain ⟨bytes, hb⟩ := hfile
    have hread : before.read (w.root.join names.relativePath) =
        after.read (w.root.join names.relativePath) := by
      rw [h.before_tree.read_join_of_entryAt? h.before_root hp hne hb,
        h.after_tree.read_join_of_entryAt? h.after_root hp hne ((hsame bytes).1 hb)]
    simp only [Workspace.objectAt?, analyze, readSource, hread]
  · rw [Workspace.objectAt?_eq_none h.before_tree h.before_root hp hne
        (fun bytes hb => hfile ⟨bytes, hb⟩),
      Workspace.objectAt?_eq_none h.after_tree h.after_root hp hne
        (fun bytes ha => hfile ⟨bytes, (hsame bytes).2 ha⟩)]

/-- Reading a changed file again leaves what it declares, unless the file is gone because there is a
file in place of its directory: then the entry stays. -/
theorem refreshed_eq (h : SourceChange w before after root changed) (hmem : names ∈ changed)
    (old : Option SourceObject) :
    (after.FileAbove root names ∧ w.objectAt? after names.relativePath = none ∧
        w.refreshed after names.relativePath old = old) ∨
      (¬ after.FileAbove root names ∧
        w.refreshed after names.relativePath old = w.objectAt? after names.relativePath) := by
  have hp := h.plain names hmem
  have hne := h.ne_nil hmem
  rcases h.readable names hmem with hnone | ⟨bytes, t, hfile, htext⟩
  · rw [Workspace.refreshed, Workspace.objectAt?, analyze, readSource]
    rcases h.after_tree.read_join_of_none h.after_root hp hne hnone with ⟨ha, hr⟩ | ⟨ha, hr⟩
    · rw [hr]
      exact Or.inl ⟨ha, rfl, rfl⟩
    · rw [hr]
      exact Or.inr ⟨ha, rfl⟩
  · refine Or.inr ⟨?_, ?_⟩
    · -- Only directories stand above a file.
      rintro ⟨n, hn, content, habove⟩
      have hdrop : names.drop n ≠ [] := fun he => by
        have := congrArg List.length he
        rw [List.length_drop, List.length_nil] at this
        omega
      rw [← List.take_append_drop n names, ← List.append_assoc] at hfile
      rw [h.after_tree.entryAt?_directory hdrop hfile] at habove
      cases habove
    · have hr := h.after_tree.read_join_of_entryAt? h.after_root hp hne hfile
      rw [htext] at hr
      rw [Workspace.refreshed, Workspace.objectAt?, analyze, readSource, hr]
      rfl

/-- **Reading changed files again leaves the cache as a new scan fills it, but for two cases.** A
hidden file that declares an object gets an entry, and a file whose directory has become a file
keeps the entry it had. -/
theorem get?_recheck_eq_scanAll_iff (h : SourceChange w before after root changed) :
    (∀ q, (w.recheck after (w.scanAll before).cache
        (changed.map fun names => w.root.join names.relativePath)).1.get? q =
      (w.scanAll after).cache.get? q) ↔
    ∀ names ∈ changed, w.config.accepts names.relativePath.text = true →
      (names.isHidden = true → w.objectAt? after names.relativePath = none) ∧
      (after.FileAbove root names →
        (w.scanAll before).cache.get? names.relativePath = none) := by
  have hchanged : ∀ names ∈ changed, Plain names ∧ names ≠ [] := fun names hmem =>
    ⟨h.plain names hmem, h.ne_nil hmem⟩
  have hscan {names : Names} (hp : Plain names) (hne : names ≠ []) :=
    Workspace.get?_scanAll (w := w) h.after_tree h.after_root hp hne
  have hscan' {names : Names} (hp : Plain names) (hne : names ≠ []) :=
    Workspace.get?_scanAll (w := w) h.before_tree h.before_root hp hne
  constructor
  · intro heq names hmem haccepts
    have hp := h.plain names hmem
    have hne := h.ne_nil hmem
    have hq := heq names.relativePath
    rw [Workspace.get?_recheck hp hchanged, if_pos ⟨hmem, haccepts⟩, hscan hp hne,
      h.isSource_eq hmem, haccepts, Bool.and_true] at hq
    rcases h.refreshed_eq hmem ((w.scanAll before).cache.get? names.relativePath) with
      ⟨habove, hnone, hold⟩ | ⟨habove, hold⟩
    · rw [hold, hnone, ite_self] at hq
      exact ⟨fun _ => hnone, fun _ => hq⟩
    · rw [hold] at hq
      refine ⟨fun hhidden => ?_, fun ha => absurd ha habove⟩
      rw [hhidden] at hq
      exact hq
  · intro hcond q
    by_cases hq : ∃ names : Names, Plain names ∧ names ≠ [] ∧ names.relativePath.same q = true
    · obtain ⟨names, hp, hne, hsame⟩ := hq
      rw [← Cache.get?_congr _ hsame, ← Cache.get?_congr _ hsame,
        Workspace.get?_recheck hp hchanged, hscan hp hne]
      by_cases hmem : names ∈ changed
      · have hsource := h.isSource_eq hmem
        by_cases haccepts : w.config.accepts names.relativePath.text = true
        · obtain ⟨hhidden, habove⟩ := hcond names hmem haccepts
          rw [haccepts, Bool.and_true] at hsource
          rw [if_pos ⟨hmem, haccepts⟩, hsource]
          rcases h.refreshed_eq hmem ((w.scanAll before).cache.get? names.relativePath) with
            ⟨ha, hnone, hold⟩ | ⟨-, hold⟩
          · rw [hold, habove ha, hnone, ite_self]
          · rw [hold]
            cases hh : names.isHidden with
            | true => exact hhidden hh
            | false => rfl
        · rw [Bool.not_eq_true] at haccepts
          rw [haccepts, Bool.and_false] at hsource
          rw [if_neg fun hc => Bool.false_ne_true (haccepts ▸ hc.2), hscan' hp hne, hsource]
          rfl
      · rw [if_neg fun hc => hmem hc.1, hscan' hp hne, h.objectAt?_eq hmem hp hne]
    · have hno : ∀ names : Names, Plain names → names ≠ [] →
          ¬ names.relativePath.same q = true := fun names hp hne hsame =>
        hq ⟨names, hp, hne, hsame⟩
      rw [Workspace.get?_recheck_of_not_same hchanged
          (fun names hmem => hno names (h.plain names hmem) (h.ne_nil hmem)),
        Workspace.get?_scanAll_of_not_plain h.before_tree h.before_root hno,
        Workspace.get?_scanAll_of_not_plain h.after_tree h.after_root hno]

/-! ## A file is created -/

/-- A workspace with the default configuration. -/
def home : Workspace := ⟨⟨"/home"⟩, {}⟩

/-- Where the workspace is. -/
def homeNames : Names := ["home"]

/-- A file in a directory of the workspace. -/
def fileNames (directory : Text) : Names := [directory, "A.al"]

/-- The disk with nothing in the workspace. -/
def noFile : Disk where
  entries := [(homeNames, .directory)]

/-- The disk with one file in the workspace. -/
def oneFile (directory : Text) : Disk where
  entries := [(homeNames, .directory), (homeNames ++ [directory], .directory),
    (homeNames ++ fileNames directory, .file "codeunit 1 A".toUTF8)]

theorem tree_oneFile {directory : Text} (hd : PlainName directory) : (oneFile directory).Tree := by
  have hplain : Plain (homeNames ++ fileNames directory) := by
    intro name hn
    simp only [homeNames, fileNames, List.singleton_append, List.mem_cons, List.not_mem_nil,
      or_false] at hn
    rcases hn with rfl | rfl | rfl
    · decide
    · exact hd
    · decide
  refine ⟨fun entry he => ?_, ?_, fun entry he => ?_⟩
  · simp only [oneFile, List.mem_cons, List.not_mem_nil, or_false] at he
    rcases he with rfl | rfl | rfl
    · exact ⟨nofun, by decide⟩
    · exact ⟨nofun, fun name hn => hplain name (List.mem_of_mem_take (i := 2) hn)⟩
    · exact ⟨nofun, hplain⟩
  · simp [oneFile, homeNames, fileNames]
  · simp only [oneFile, List.mem_cons, List.not_mem_nil, or_false] at he
    rcases he with rfl | rfl | rfl
    · rfl
    · rfl
    · simp [oneFile, homeNames, fileNames, Disk.entryAt?, List.lookup_cons]

theorem tree_noFile : noFile.Tree := by
  refine ⟨fun entry he => ?_, by decide, fun entry he => ?_⟩
  · rw [List.mem_singleton.1 he]
    exact ⟨nofun, by decide⟩
  · rw [List.mem_singleton.1 he]
    rfl

theorem sourceChange_oneFile {directory : Text} (hd : PlainName directory)
    (hsource : isSourcePath (fileNames directory).relativePath = true) :
    SourceChange home noFile (oneFile directory) homeNames [fileNames directory] where
  before_tree := tree_noFile
  after_tree := tree_oneFile hd
  before_root := by decide
  after_root := rfl
  elsewhere := by
    intro names hmem
    refine Disk.sameContent_iff.2 fun bytes => iff_of_false (fun h => ?_) (fun h => ?_)
    · have hin := Disk.mem_of_entryAt? (by exact List.cons_ne_nil _ _) h
      simp [noFile] at hin
    · have hin := Disk.mem_of_entryAt? (by exact List.cons_ne_nil _ _) h
      simp only [oneFile, List.mem_cons, Prod.mk.injEq, reduceCtorEq, and_false, false_or,
        List.not_mem_nil, or_false, List.append_cancel_left_eq] at hin
      exact hmem (List.mem_singleton.2 hin.1)
  plain := by
    intro names hmem name hn
    rw [List.mem_singleton.1 hmem] at hn
    simp only [fileNames, List.mem_cons, List.not_mem_nil, or_false] at hn
    rcases hn with rfl | rfl
    · exact hd
    · decide
  source := fun names hmem => by
    rw [List.mem_singleton.1 hmem]
    exact hsource
  readable := by
    intro names hmem
    rw [List.mem_singleton.1 hmem]
    refine Or.inr ⟨"codeunit 1 A".toUTF8, "codeunit 1 A", ?_, by decide +kernel⟩
    exact (tree_oneFile hd).entryAt?_of_mem (by simp [oneFile])

/-- A visible file that is created is in the cache as after a new scan. -/
theorem get?_recheck_eq_scanAll_visible :
    ((home.scanAll (oneFile "src")).cache.get? (fileNames "src").relativePath).isSome = true ∧
      ∀ q, (home.recheck (oneFile "src") (home.scanAll noFile).cache
          ([fileNames "src"].map fun names => home.root.join names.relativePath)).1.get? q =
        (home.scanAll (oneFile "src")).cache.get? q := by
  refine ⟨by decide +kernel, ?_⟩
  refine (get?_recheck_eq_scanAll_iff (sourceChange_oneFile (by decide) (by decide))).2 ?_
  intro names hmem _
  rw [List.mem_singleton.1 hmem]
  exact ⟨fun hhidden => absurd hhidden (by decide), fun _ => by decide +kernel⟩

/-- A hidden file that is created is in the cache, where a new scan leaves it out. -/
theorem exists_recheck_ne_scanAll :
    ¬ ∀ (w : Workspace) (before after : Disk) (root : Names) (changed : List Names),
      SourceChange w before after root changed →
        ∀ q, (w.recheck after (w.scanAll before).cache
            (changed.map fun names => w.root.join names.relativePath)).1.get? q =
          (w.scanAll after).cache.get? q := by
  intro hall
  have heq := hall home noFile (oneFile ".git") homeNames [fileNames ".git"]
    (sourceChange_oneFile (by decide) (by decide)) (fileNames ".git").relativePath
  revert heq
  decide +kernel

end SourceChange

end DocAudit
