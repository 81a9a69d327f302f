import DocAudit.Proofs.Cache
import DocAudit.Proofs.Disk
import DocAudit.Proofs.Reading.Declarations
import DocAudit.Workspace

/-!
# What a scan finds

A scan that is not cancelled reads every source file of the workspace, each on its own: what the
cache says about a path in the end depends on the file at that path alone.

* `Workspace.objectAt?`: the object of the file at a path.
* `Workspace.get?_scanFiles`: some files read one by one.
* `Workspace.get?_scanAll`: the cache after a whole scan.
-/

namespace DocAudit

theorem Names.relativePath_eq (names : Names) :
    names.relativePath = ⟨List.intercalate ['/'] names⟩ := rfl

/-- Plain names lead to the same path only if they are the same. -/
theorem Names.same_relativePath_iff {names others : Names} (hp : Plain names) (hp' : Plain others) :
    names.relativePath.same others.relativePath = true ↔ names = others := by
  rw [Path.same_iff, Names.relativePath_eq, Names.relativePath_eq,
    Path.components_intercalate hp, Path.components_intercalate hp']
  refine List.map_inj_right ?_
  intro a b hab
  exact Component.name.inj hab

/-! ## One file -/

theorem file_of_analyze {d : Disk} {root path : Path} {s : Settings} {o : SourceObject}
    (h : analyze d root path s = .ok (some o)) : o.file = path := by
  rw [analyze, readSource] at h
  cases hr : d.read (root.join path) with
  | missing =>
    rw [hr] at h
    cases h
  | unreadable fault =>
    rw [hr] at h
    cases h
  | text t =>
    rw [hr] at h
    have ho : (SourceFile.ofText path t).object? s = some o := Except.ok.inj h
    exact (SourceFile.readFrom_of_object? ho).file

/-- What reading a file finds; `old` if the file cannot be read. -/
def foundOr (found : Except Failure (Option SourceObject)) (old : Option SourceObject) :
    Option SourceObject :=
  match found with
  | .ok object => object
  | .error _ => old

/-- Reading a file adds to the cache what the file declares. -/
theorem Scan.get?_add {scan : Scan} {path : Path}
    {found : Except Failure (Option SourceObject)}
    (hfile : ∀ o, found = .ok (some o) → o.file = path) (q : Path) :
    (scan.add path found).cache.get? q =
      if path.same q then foundOr found (scan.cache.get? q) else scan.cache.get? q := by
  cases found with
  | error failure => exact (ite_self _).symm
  | ok object =>
    cases object with
    | none => exact Cache.get?_remove scan.cache path q
    | some o =>
      have := Cache.get?_insertAt scan.cache o.file o q
      rw [hfile o rfl] at this
      rw [Scan.add, Cache.insert, hfile o rfl]
      exact this

namespace Workspace

variable {w : Workspace} {d : Disk} {scan : Scan} {q : Path} {paths : List Path}

/-- The object of the file at a path; none if the file cannot be read. -/
def objectAt? (w : Workspace) (d : Disk) (path : Path) : Option SourceObject :=
  foundOr (analyze d w.root path w.config.settings) none

/-! ## Files one by one -/

theorem scanFiles_cons (path : Path) (paths : List Path) :
    w.scanFiles d scan (path :: paths) =
      w.scanFiles d (scan.add path (analyze d w.root path w.config.settings)) paths := rfl

theorem scanFiles_append (paths others : List Path) :
    w.scanFiles d scan (paths ++ others) = w.scanFiles d (w.scanFiles d scan paths) others :=
  List.foldl_append

theorem get?_scanFiles_of_not_same (h : ∀ path ∈ paths, ¬ path.same q = true) :
    (w.scanFiles d scan paths).cache.get? q = scan.cache.get? q := by
  induction paths generalizing scan with
  | nil => rfl
  | cons path paths ih =>
    rw [scanFiles_cons, ih fun p hp => h p (List.mem_cons_of_mem path hp),
      Scan.get?_add fun o ho => file_of_analyze ho, if_neg (h path List.mem_cons_self)]

/-- **A path among those read** ends up with the object of its file. -/
theorem get?_scanFiles {p : Path} (hsame : p.same q = true)
    (hunique : ∀ path ∈ paths, path.same q = true → path = p)
    (hstart : scan.cache.get? q = none ∨ scan.cache.get? q = w.objectAt? d p) :
    (w.scanFiles d scan paths).cache.get? q =
      if p ∈ paths then w.objectAt? d p else scan.cache.get? q := by
  induction paths generalizing scan with
  | nil => rw [if_neg List.not_mem_nil]; rfl
  | cons path paths ih =>
    have hrest : ∀ path ∈ paths, path.same q = true → path = p := fun path' hp =>
      hunique path' (List.mem_cons_of_mem path hp)
    have hadd := @Scan.get?_add scan path (analyze d w.root path w.config.settings)
      (fun o ho => file_of_analyze ho) q
    rw [scanFiles_cons]
    by_cases hpath : path.same q = true
    · have heq := hunique path List.mem_cons_self hpath
      subst heq
      -- Reading the file once is enough: a failure leaves nothing, as there was nothing before.
      have hnow : (scan.add path (analyze d w.root path w.config.settings)).cache.get? q =
          w.objectAt? d path := by
        rw [hadd, if_pos hpath]
        rw [objectAt?] at hstart ⊢
        cases hf : analyze d w.root path w.config.settings with
        | ok object => rfl
        | error failure =>
          rw [hf] at hstart
          exact hstart.elim id id
      rw [ih hrest (Or.inr hnow), hnow, ite_self, if_pos List.mem_cons_self]
    · rw [if_neg hpath] at hadd
      have hne : p ≠ path := by
        rintro rfl
        exact hpath hsame
      rw [ih hrest (by rw [hadd]; exact hstart), hadd]
      by_cases hmem : p ∈ paths
      · rw [if_pos hmem, if_pos (List.mem_cons_of_mem path hmem)]
      · rw [if_neg hmem, if_neg fun h => (List.mem_cons.1 h).elim hne hmem]

/-! ## The whole scan -/

theorem scanBatches_never (k : Nat) (bs : List (List Path)) :
    w.scanBatches d (fun _ => false) k scan bs = w.scanFiles d scan bs.flatten := by
  induction bs generalizing k scan with
  | nil => rfl
  | cons batch rest ih =>
    rw [scanBatches, if_neg Bool.false_ne_true, ih, List.flatten_cons, scanFiles_append]

theorem scanAll_eq (w : Workspace) (d : Disk) :
    w.scanAll d = w.scanFiles d { cache := {} } (w.sources d) := by
  rw [scanAll, Workspace.scan, scanBatches_never, flatten_batches]

theorem mem_sources_iff {directory : Names} (hroot : d.locate? w.root = some directory)
    {path : Path} :
    path ∈ w.sources d ↔
      ∃ names ∈ d.filesBelow directory, w.isSource names = true ∧ names.relativePath = path := by
  rw [sources, hroot]
  simp only [List.mem_mergeSort, List.mem_map, List.mem_filter, and_assoc]

theorem ne_nil_of_isSourcePath {names : Names} (h : isSourcePath names.relativePath = true) :
    names ≠ [] := by
  rintro rfl
  revert h
  decide

theorem get?_scanAll_of_not_plain {directory : Names} (ht : d.Tree)
    (hroot : d.locate? w.root = some directory)
    (hq : ∀ names : Names, Plain names → names ≠ [] → ¬ names.relativePath.same q = true) :
    (w.scanAll d).cache.get? q = none := by
  rw [scanAll_eq, get?_scanFiles_of_not_same]
  · rfl
  · intro path hpath
    obtain ⟨names, hmem, hsource, rfl⟩ := (mem_sources_iff hroot).1 hpath
    rw [isSource, Bool.and_eq_true, Bool.and_eq_true] at hsource
    exact hq names (ht.plain_of_mem_filesBelow hmem) (ne_nil_of_isSourcePath hsource.1.2)

theorem objectAt?_eq_none {directory names : Names} (ht : d.Tree)
    (hroot : d.locate? w.root = some directory) (hp : Plain names) (hne : names ≠ [])
    (h : ∀ bytes, d.entryAt? (directory ++ names) ≠ some (.file bytes)) :
    w.objectAt? d names.relativePath = none := by
  have hread : ∀ t, d.read (w.root.join names.relativePath) ≠ .text t := by
    intro t ht'
    cases he : d.entryAt? (directory ++ names) with
    | none =>
      rcases ht.read_join_of_none hroot hp hne he with ⟨-, hr⟩ | ⟨-, hr⟩ <;>
        · rw [hr] at ht'
          cases ht'
    | some entry =>
      rw [ht.read_join_of_entryAt? hroot hp hne he] at ht'
      cases entry with
      | directory => cases ht'
      | file bytes => exact h bytes he
  rw [objectAt?, analyze, readSource]
  cases hr : d.read (w.root.join names.relativePath) with
  | text t => exact absurd hr (hread t)
  | missing => rfl
  | unreadable fault => rfl

/-- **After a scan the cache holds the object of every source file**, and nothing else. -/
theorem get?_scanAll {directory names : Names} (ht : d.Tree)
    (hroot : d.locate? w.root = some directory) (hp : Plain names) (hne : names ≠ []) :
    (w.scanAll d).cache.get? names.relativePath =
      if w.isSource names then w.objectAt? d names.relativePath else none := by
  have hunique : ∀ path ∈ w.sources d, path.same names.relativePath = true →
      path = names.relativePath := by
    intro path hpath hsame
    obtain ⟨others, hmem, -, rfl⟩ := (mem_sources_iff hroot).1 hpath
    rw [(Names.same_relativePath_iff (ht.plain_of_mem_filesBelow hmem) hp).1 hsame]
  rw [scanAll_eq, get?_scanFiles (Path.same_refl _) hunique (Or.inl rfl)]
  by_cases hmem : names.relativePath ∈ w.sources d
  · obtain ⟨others, hbelow, hsource, heq⟩ := (mem_sources_iff hroot).1 hmem
    have hsame : others.relativePath.same names.relativePath = true := by
      rw [heq]
      exact Path.same_refl _
    rw [(Names.same_relativePath_iff (ht.plain_of_mem_filesBelow hbelow) hp).1 hsame] at hsource
    rw [if_pos hmem, if_pos hsource]
  · rw [if_neg hmem]
    by_cases hsource : w.isSource names = true
    · rw [if_pos hsource, objectAt?_eq_none ht hroot hp hne]
      · rfl
      · intro bytes hfile
        exact hmem ((mem_sources_iff hroot).2
          ⟨names, (ht.mem_filesBelow_iff hne).2 ⟨bytes, hfile⟩, hsource, rfl⟩)
    · rw [if_neg hsource]
      rfl

end Workspace

end DocAudit
