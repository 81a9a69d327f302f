import DocAudit.Proofs.CacheRun
import DocAudit.Proofs.Workspace.Batches
import DocAudit.Proofs.Workspace.Recheck

/-!
# Reading single files again

A file that is read again changes the cache at its own path or, if it is there and cannot be read,
nowhere. So files at different paths do not get in each other's way: they may be read in any order,
and once is as good as twice.

* `Workspace.refreshing`: `Workspace.refresh` as steps on a cache that a failure does not undo.
* `ReadAgain`: what reading one file again may do.
* `Tells`: a view of caches that tells what reading a file again did, path by path.
* `Workspace.refreshing_atomic`: one file, and files at different paths.
-/

namespace DocAudit

namespace Workspace

variable {w : Workspace} {d : Disk} {c : Cache} {path q : Path} {paths others : List Path}

/-! ## One file -/

/-- One file read again, as steps on a cache: what a step has done to the cache stays done if a
later one fails. -/
def refreshing (w : Workspace) (d : Disk) (path : Path) : ExceptT Failure (StateM Cache) Unit :=
  match analyze d w.root path w.config.settings with
  | .ok found => modify fun c => c.replace path found
  | .error (.fileNotFound _) => modify fun c => (c.takeOut path).2
  | .error failure => throw failure

/-- The outcome of reading a file again, and the cache that is left. -/
def refreshRun (w : Workspace) (d : Disk) (c : Cache) (path : Path) : Except Failure Unit × Cache :=
  ((w.refreshing d path).run.run c).run

/-- A file that was read again: how that ended, and the cache that was left. -/
structure ReadAgain (w : Workspace) (d : Disk) (c : Cache) (path : Path)
    (outcome : Except Failure Unit) (after : Cache) : Prop where
  elsewhere : ∀ q, ¬ path.same q = true → after.get? q = c.get? q
  failed : ∀ failure, outcome = .error failure → after = c
  text : ∀ t, d.read (w.root.join path) = .text t → outcome = .ok () ∧
    ∀ q, path.same q = true → after.get? q = (SourceFile.ofText path t).object? w.config.settings
  missing : d.read (w.root.join path) = .missing → outcome = .ok () ∧
    ∀ q, path.same q = true → after.get? q = none
  unreadable : ∀ fault, d.read (w.root.join path) = .unreadable fault →
    outcome = .error (.io fault)

/-- The steps do what reading the file again at once does. -/
theorem refreshRun_eq (w : Workspace) (d : Disk) (c : Cache) (path : Path) :
    w.refreshRun d c path =
      match w.refresh d c path with
      | .ok after => (.ok (), after)
      | .error failure => (.error failure, c) := by
  rw [refreshRun, refreshing, refresh]
  cases analyze d w.root path w.config.settings with
  | ok found => rfl
  | error failure =>
    cases failure with
    | fileNotFound p =>
      show (_, (c.takeOut path).2) = _
      rw [Cache.takeOut_eq]
    | _ => rfl

theorem refresh_eq_map (w : Workspace) (d : Disk) (c : Cache) (path : Path) :
    w.refresh d c path = (w.refreshRun d c path).1.map fun _ => (w.refreshRun d c path).2 := by
  rw [refreshRun_eq]
  cases w.refresh d c path <;> rfl

theorem get?_refreshRun (c : Cache) (path q : Path) :
    (w.refreshRun d c path).2.get? q =
      if path.same q then w.refreshed d path (c.get? q) else c.get? q := by
  rw [← get?_refresh, refreshRun_eq]
  cases w.refresh d c path <;> rfl

theorem readAgain_refreshRun (w : Workspace) (d : Disk) (c : Cache) (path : Path) :
    ReadAgain w d c path (w.refreshRun d c path).1 (w.refreshRun d c path).2 where
  elsewhere q hq := by rw [get?_refreshRun, if_neg hq]
  failed failure h := by
    rw [refreshRun_eq] at h ⊢
    cases hr : w.refresh d c path with
    | ok after => rw [hr] at h; cases h
    | error failure => rfl
  text t ht := by
    have hfound : analyze d w.root path w.config.settings =
        .ok ((SourceFile.ofText path t).object? w.config.settings) := by
      rw [analyze, readSource, ht]
      rfl
    refine ⟨by rw [refreshRun_eq, refresh, hfound], fun q hq => ?_⟩
    rw [get?_refreshRun, if_pos hq, refreshed, hfound]
  missing hm := by
    have hfound : analyze d w.root path w.config.settings =
        .error (.fileNotFound (w.root.join path)) := by
      rw [analyze, readSource, hm]
      rfl
    refine ⟨by rw [refreshRun_eq, refresh, hfound], fun q hq => ?_⟩
    rw [get?_refreshRun, if_pos hq, refreshed, hfound]
  unreadable fault hu := by
    have hfound : analyze d w.root path w.config.settings = .error (.io fault) := by
      rw [analyze, readSource, hu]
      rfl
    rw [refreshRun_eq, refresh, hfound]

/-! ## Files at different paths -/

/-- The cache after some files were read again, one by one. -/
def refreshAll (w : Workspace) (d : Disk) (c : Cache) (paths : List Path) : Cache :=
  paths.foldl (fun c path => (w.refreshRun d c path).2) c

theorem refreshAll_cons (path : Path) (paths : List Path) :
    w.refreshAll d c (path :: paths) = w.refreshAll d (w.refreshRun d c path).2 paths := rfl

/-- No two paths are the same. -/
def Distinct (paths : List Path) : Prop := paths.Pairwise fun p q => ¬ p.same q = true

/-- In good caches a view tells what reading a file again did: at the path of that file it is
brought up to date, once and for all, and elsewhere it stays. -/
structure Tells {β : Type} (w : Workspace) (d : Disk) (good : Cache → Prop)
    (view : Cache → Path → β) (update : Path → β → β) : Prop where
  good_refresh : ∀ c path, good c → good (w.refreshRun d c path).2
  view_refresh : ∀ c path q, good c → view (w.refreshRun d c path).2 q =
    if path.same q then update path (view c q) else view c q
  update_update : ∀ path v, update path (update path v) = update path v

namespace Tells

variable {β : Type} {good : Cache → Prop} {view : Cache → Path → β} {update : Path → β → β}

theorem good_refreshAll (h : Tells w d good view update) (hc : good c) (paths : List Path) :
    good (w.refreshAll d c paths) :=
  List.foldlRecOn paths _ hc fun c hc path _ => h.good_refresh c path hc

theorem view_of_not_same (h : Tells w d good view update) (hc : good c)
    (hq : ∀ path ∈ paths, ¬ path.same q = true) : view (w.refreshAll d c paths) q = view c q := by
  induction paths generalizing c with
  | nil => rfl
  | cons path paths ih =>
    rw [refreshAll_cons, ih (h.good_refresh c path hc) fun p hp => hq p (List.mem_cons_of_mem _ hp),
      h.view_refresh c path q hc, if_neg (hq path List.mem_cons_self)]

/-- A path that is read with others, different from it, is brought up to date as if it were read
alone. -/
theorem view_of_mem (h : Tells w d good view update) (hc : good c) (hd : Distinct paths)
    (hmem : path ∈ paths) (hq : path.same q = true) :
    view (w.refreshAll d c paths) q = update path (view c q) := by
  induction paths generalizing c with
  | nil => cases hmem
  | cons first paths ih =>
    obtain ⟨hfirst, hrest⟩ := List.pairwise_cons.1 hd
    rw [refreshAll_cons]
    rcases List.mem_cons.1 hmem with rfl | hmem
    · rw [h.view_of_not_same (h.good_refresh c path hc), h.view_refresh c path q hc, if_pos hq]
      intro p hp hsame
      exact hfirst p hp (Path.same_iff.2 ((Path.same_iff.1 hq).trans (Path.same_iff.1 hsame).symm))
    · have hne : ¬ first.same q = true := fun hsame =>
        hfirst path hmem
          (Path.same_iff.2 ((Path.same_iff.1 hsame).trans (Path.same_iff.1 hq).symm))
      rw [ih (h.good_refresh c first hc) hrest hmem, h.view_refresh c first q hc, if_neg hne]

/-- **Files at different paths may be read again in any order.** -/
theorem view_perm (h : Tells w d good view update) (hc : good c) (hd : Distinct paths)
    (hperm : paths.Perm others) (q : Path) :
    view (w.refreshAll d c paths) q = view (w.refreshAll d c others) q := by
  have hd' : Distinct others := (hperm.pairwise_iff fun {p q} hpq => by rwa [Path.same_comm]).1 hd
  by_cases hq : ∃ path ∈ paths, path.same q = true
  · obtain ⟨path, hmem, hsame⟩ := hq
    rw [h.view_of_mem hc hd hmem hsame, h.view_of_mem hc hd' (hperm.mem_iff.1 hmem) hsame]
  · have hnone : ∀ path ∈ paths, ¬ path.same q = true := fun p hp hs => hq ⟨p, hp, hs⟩
    rw [h.view_of_not_same hc hnone,
      h.view_of_not_same hc fun p hp => hnone p (hperm.mem_iff.2 hp)]

/-- **Reading them twice is reading them once.** -/
theorem view_twice (h : Tells w d good view update) (hc : good c) (hd : Distinct paths) (q : Path) :
    view (w.refreshAll d (w.refreshAll d c paths) paths) q = view (w.refreshAll d c paths) q := by
  have hc' := h.good_refreshAll hc paths
  by_cases hq : ∃ path ∈ paths, path.same q = true
  · obtain ⟨path, hmem, hsame⟩ := hq
    rw [h.view_of_mem hc' hd hmem hsame, h.view_of_mem hc hd hmem hsame, h.update_update]
  · rw [h.view_of_not_same hc' fun p hp hs => hq ⟨p, hp, hs⟩]

end Tells

theorem tells_get? (w : Workspace) (d : Disk) :
    Tells w d (fun _ => True) Cache.get? (w.refreshed d) where
  good_refresh _ _ _ := trivial
  view_refresh c path q _ := get?_refreshRun c path q
  update_update path old := w.refreshed_refreshed d path old

/-- What reading a file again leaves as its entry. -/
def entryRefreshed (w : Workspace) (d : Disk) (path : Path) (old : Option (Path × SourceObject)) :
    Option (Path × SourceObject) :=
  match analyze d w.root path w.config.settings with
  | .ok found => Cache.entryAfter path found old
  | .error (.fileNotFound _) => none
  | .error _ => old

theorem tells_entryOf? (w : Workspace) (d : Disk) :
    Tells w d Cache.Ordered Cache.entryOf? (w.entryRefreshed d) where
  good_refresh c path h := by
    rw [refreshRun_eq, refresh]
    cases analyze d w.root path w.config.settings with
    | ok found => exact h.replace path found
    | error failure =>
      cases failure with
      | fileNotFound p => exact h.remove path
      | _ => exact h
  view_refresh c path q h := by
    rw [refreshRun_eq, refresh, entryRefreshed]
    cases analyze d w.root path w.config.settings with
    | ok found => exact h.entryOf?_replace path found q
    | error failure =>
      cases failure with
      | fileNotFound p => exact c.entryOf?_remove path q
      | _ => exact (ite_self _).symm
  update_update path old := by
    unfold entryRefreshed
    cases analyze d w.root path w.config.settings with
    | ok found =>
      cases found with
      | none => rfl
      | some o => rfl
    | error failure => cases failure <;> rfl

/-- **Reading a file again** either fails, and leaves the cache as it was, or brings the entry of
that file up to date, and no other entry. So files at different paths leave the same cache in
whatever order they are read, and the same cache if all of them are read twice: the same object for
each path, and, in a cache in order, as every cache that operations make is, the same entries. -/
theorem refreshing_atomic (w : Workspace) (d : Disk) (c : Cache) :
    (∀ path, w.refresh d c path =
          (w.refreshRun d c path).1.map (fun _ => (w.refreshRun d c path).2) ∧
        ReadAgain w d c path (w.refreshRun d c path).1 (w.refreshRun d c path).2) ∧
      (∀ paths others, Distinct paths → paths.Perm others →
        (∀ q, (w.refreshAll d c paths).get? q = (w.refreshAll d c others).get? q) ∧
          (c.Ordered → w.refreshAll d c paths = w.refreshAll d c others)) ∧
      ∀ paths, Distinct paths →
        (∀ q, (w.refreshAll d (w.refreshAll d c paths) paths).get? q =
            (w.refreshAll d c paths).get? q) ∧
          (c.Ordered → w.refreshAll d (w.refreshAll d c paths) paths = w.refreshAll d c paths) := by
  have hget := w.tells_get? d
  have hentry := w.tells_entryOf? d
  refine ⟨fun path => ⟨w.refresh_eq_map d c path, w.readAgain_refreshRun d c path⟩,
    fun paths others hd hperm => ⟨hget.view_perm trivial hd hperm, fun hc => ?_⟩,
    fun paths hd => ⟨hget.view_twice trivial hd, fun hc => ?_⟩⟩
  · exact (hentry.good_refreshAll hc paths).ext (hentry.good_refreshAll hc others)
      (hentry.view_perm hc hd hperm)
  · have honce := hentry.good_refreshAll hc paths
    exact (hentry.good_refreshAll honce paths).ext honce (hentry.view_twice hc hd)

/-- Of three files the first declares an object now, the second none any more, and the third cannot
be read. From the last to the first they leave what they leave from the first to the last, and the
third leaves the cache as it was. -/
theorem refreshing_atomic_fourFiles :
    let c := [⟨"B.al"⟩, ⟨"C.al"⟩].foldl (oneByOne.readInto fourFilesBefore) {}
    let paths : List Path := [⟨"A.al"⟩, ⟨"B.al"⟩, ⟨"C.al"⟩]
    c.Ordered ∧ Distinct paths ∧ paths.Perm paths.reverse ∧ c.paths = [⟨"B.al"⟩, ⟨"C.al"⟩] ∧
      (oneByOne.refreshAll fourFiles c paths.reverse).paths = [⟨"A.al"⟩, ⟨"C.al"⟩] ∧
      (oneByOne.refreshAll fourFiles (oneByOne.refreshAll fourFiles c paths) paths).paths =
        [⟨"A.al"⟩, ⟨"C.al"⟩] ∧
      (oneByOne.refreshRun fourFiles c ⟨"C.al"⟩).1 = .error (.io .notText) ∧
      (oneByOne.refreshRun fourFiles c ⟨"C.al"⟩).2 = c := by
  intro c paths
  have hc : c.Ordered := by unfold Cache.Ordered; decide +kernel
  have hd : Distinct paths := by unfold Distinct; decide
  have hperm : paths.Perm paths.reverse := paths.reverse_perm.symm
  obtain ⟨hone, horder, htwice⟩ := refreshing_atomic oneByOne fourFiles c
  have hpaths : (oneByOne.refreshAll fourFiles c paths).paths = [⟨"A.al"⟩, ⟨"C.al"⟩] := by
    decide +kernel
  have hthird := (hone ⟨"C.al"⟩).2
  have hfault := hthird.unreadable .notText (by decide +kernel)
  refine ⟨hc, hd, hperm, by decide +kernel, ?_, ?_, hfault, hthird.failed _ hfault⟩
  · rw [← (horder paths paths.reverse hd hperm).2 hc, hpaths]
  · rw [(htwice paths hd).2 hc, hpaths]

end Workspace

end DocAudit
