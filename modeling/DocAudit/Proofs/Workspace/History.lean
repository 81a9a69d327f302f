import DocAudit.Proofs.Report.Grouping
import DocAudit.Proofs.Workspace.Check

/-!
# A cache and its reports after any history

A cache is filled by scans, and files are read into it again one by one or some at a time. Each of
these writes entries on its own, but none writes an object under a path that is not the object's
own. So in every cache that they can produce, the findings come file by file in the order of paths,
and a report has one section for each file.

* `Cache.Filed`: the entries are in order, and every object is under its own path.
* `Workspace.Event`, `Workspace.history`: what was done to a cache, and the cache after it.
* `Workspace.evaluate_history`: the entries, the findings and the report after any history.
-/

namespace DocAudit

open checkSummary (distinctRuns)

/-! ## Objects under their own paths -/

/-- The entries are in order, and every object is under its own path. -/
structure Cache.Filed (c : Cache) : Prop where
  ordered : c.Ordered
  own : ∀ entry ∈ c.entries, entry.2.file.same entry.1 = true

namespace Cache.Filed

variable {c : Cache} {path : Path} {found : Option SourceObject}

theorem nil : Filed {} := ⟨ordered_nil, fun _ h => absurd h List.not_mem_nil⟩

theorem replace (h : c.Filed) (hfound : ∀ o, found = some o → o.file = path) :
    (c.replace path found).Filed where
  ordered := h.ordered.replace path found
  own := by
    intro entry hentry
    cases found with
    | none => exact h.own entry (List.mem_filter.1 hentry).1
    | some o =>
      rcases mem_insertEntry hentry with ⟨hsame, rfl⟩ | hold
      · rw [hfound entry.2 rfl, Path.same_comm]
        exact hsame
      · exact h.own entry hold

theorem pairwise_objects (h : c.Filed) :
    c.objects.Pairwise fun o o' => o.file.before o'.file = true := by
  rw [objects, List.pairwise_map]
  refine h.ordered.imp_of_mem fun {a b} ha hb hab => ?_
  rwa [Path.before_congr_left (h.own a ha), Path.before_congr_right (h.own b hb)]

/-- **The findings come in the order of their files.** -/
theorem inOrder_evaluate (h : c.Filed) (s : Settings) :
    InOrder ((c.evaluate s).map (·.file)) := by
  rw [InOrder, List.pairwise_map, evaluate, List.pairwise_flatMap]
  refine ⟨fun o _ => ?_, h.pairwise_objects.imp fun {o o'} hbefore f hf g hg => ?_⟩
  · refine List.pairwise_of_forall_mem_list fun f hf g hg => ?_
    rw [SourceObject.file_of_mem_evaluate hf, SourceObject.file_of_mem_evaluate hg]
    exact fun hlt => Path.not_same_of_before hlt (Path.same_refl o.file)
  · rw [SourceObject.file_of_mem_evaluate hf, SourceObject.file_of_mem_evaluate hg]
    exact fun hlt => Path.not_same_of_before (Path.before_trans hbefore hlt) (Path.same_refl o.file)

end Cache.Filed

/-- In order, what stands between two spellings of a path are spellings of it. -/
theorem InOrder.same_of_mem_between {before between after : List Path} {p q r : Path}
    (h : InOrder (before ++ p :: between ++ q :: after)) (hsame : p.same q = true)
    (hr : r ∈ between) : r.same p = true := by
  rw [InOrder, List.pairwise_append, List.pairwise_append, List.pairwise_cons] at h
  obtain ⟨⟨-, ⟨hp, -⟩, -⟩, -, hq⟩ := h
  have hpr := hp r hr
  have hrq := hq r (List.mem_append_right _ (List.mem_cons_of_mem p hr)) q List.mem_cons_self
  rw [← Path.before_congr_left hsame] at hrq
  exact Decidable.byContradiction fun hne => hpr (Path.before_of_not_same hne hrq)

/-! ## Histories -/

namespace Workspace

/-- What can be done to the cache of a workspace. -/
inductive Action
  /-- All source files are read, in batches; before each batch it is said whether to stop. -/
  | scan (cancelled : Nat → Bool)
  /-- One file is read again. -/
  | refresh (path : Path)
  /-- Some changed files are read again. -/
  | recheck (changed : List Path)

/-- The cache after an action. A file that cannot be read again leaves it as it was. -/
def act (w : Workspace) (d : Disk) (c : Cache) : Action → Cache
  | .scan cancelled => (w.scan d cancelled c).cache
  | .refresh path =>
    match w.refresh d c path with
    | .ok c => c
    | .error _ => c
  | .recheck changed => (w.recheck d c changed).1

/-- An action, with the workspace and the disk as they are at that time. -/
structure Event where
  workspace : Workspace
  disk : Disk
  action : Action

/-- A cache that was empty at first, after some events. -/
def history (events : List Event) : Cache :=
  events.foldl (fun c event => event.workspace.act event.disk c event.action) {}

variable {w : Workspace} {d : Disk} {c : Cache}

theorem filed_readInto (h : c.Filed) (path : Path) : (w.readInto d c path).Filed := by
  rw [readInto]
  rcases analyze_cases w d path with ⟨failure, -, hr, -⟩ | ⟨hfound, hr⟩
  · rw [hr, if_neg Bool.false_ne_true]
    exact h
  · rw [if_pos hr]
    exact h.replace fun o ho => file_of_analyze (hfound.trans (congrArg Except.ok ho))

theorem filed_scanFiles {scan : Scan} (h : scan.cache.Filed) (paths : List Path) :
    (w.scanFiles d scan paths).cache.Filed := by
  rw [cache_scanFiles]
  exact List.foldlRecOn paths (w.readInto d) h fun c hc path _ => filed_readInto hc path

theorem filed_scanBatches {scan : Scan} (h : scan.cache.Filed) (cancelled : Nat → Bool) (k : Nat)
    (bs : List (List Path)) : (w.scanBatches d cancelled k scan bs).cache.Filed := by
  induction bs generalizing scan k with
  | nil => exact h
  | cons batch rest ih =>
    rw [scanBatches]
    split
    · exact h
    · exact ih (filed_scanFiles h batch) (k + 1)

theorem filed_refresh (h : c.Filed) {path : Path} {c' : Cache} (hr : w.refresh d c path = .ok c') :
    c'.Filed := by
  rw [refresh] at hr
  cases hfound : analyze d w.root path w.config.settings with
  | ok found =>
    rw [hfound] at hr
    cases hr
    exact h.replace fun o ho => file_of_analyze (hfound.trans (congrArg Except.ok ho))
  | error failure =>
    rw [hfound] at hr
    cases failure with
    | fileNotFound p =>
      cases hr
      exact @Cache.Filed.replace _ path none h nofun
    | _ => cases hr

theorem filed_recheckFile (h : c.Filed) (changed : Path) : (w.recheckFile d c changed).1.Filed := by
  rw [recheckFile]
  split
  · split
    · next hr => exact filed_refresh h hr
    · exact h
  · exact h

theorem filed_recheck (h : c.Filed) (changed : List Path) : (w.recheck d c changed).1.Filed := by
  induction changed generalizing c with
  | nil => exact h
  | cons path rest ih => exact ih (filed_recheckFile h path)

/-- No action writes an object under a path that is not its own. -/
theorem filed_act (h : c.Filed) (action : Action) : (w.act d c action).Filed := by
  cases action with
  | scan cancelled => exact filed_scanBatches h cancelled 0 _
  | refresh path =>
    rw [act]
    split
    · next hr => exact filed_refresh h hr
    · exact h
  | recheck changed => exact filed_recheck h changed

theorem filed_history (events : List Event) : (history events).Filed :=
  List.foldlRecOn events _ Cache.Filed.nil fun _ hc event _ => filed_act hc event.action

/-- **After any history the findings are grouped by file.** Every object is under its own path. The
findings come in the order of files, so that those of one file stand together, the files counted in
a summary are the files that differ, and a report has one section for each of them, with its
findings in their order. -/
theorem evaluate_history (events : List Event) (s : Settings) :
    let findings := (history events).evaluate s
    let files := distinctRuns (findings.map (·.file))
    (∀ entry ∈ (history events).entries, entry.2.file.same entry.1 = true) ∧
      ((findings.map (·.file)).Pairwise fun p q => ¬ q.before p = true) ∧
      (∀ before f between g after, findings = before ++ f :: between ++ g :: after →
        f.file.same g.file = true → ∀ h ∈ between, h.file.same f.file = true) ∧
      (files.Pairwise fun p q => p.before q = true) ∧
      (∀ q, (∃ p ∈ files, p.same q = true) ↔ ∃ f ∈ findings, f.file.same q = true) ∧
      files.length = (findings.map (·.file.components)).toFinset.card ∧
      markdownReport findings = List.intercalate "\n" (files.map (fileSection findings)) := by
  intro findings files
  have hfiled := filed_history events
  have horder : InOrder (findings.map (·.file)) := hfiled.inOrder_evaluate s
  refine ⟨hfiled.own, horder, ?_, pairwise_distinctRuns horder, fun q => ⟨?_, ?_⟩, ?_,
    markdownReport_eq horder⟩
  · intro before f between g after heq hsame h hh
    rw [heq, List.map_append, List.map_append, List.map_cons, List.map_cons] at horder
    exact horder.same_of_mem_between hsame (List.mem_map_of_mem hh)
  · rintro ⟨p, hp, hsame⟩
    obtain ⟨f, hf, rfl⟩ := List.mem_map.1 ((distinctRuns_sublist _).subset hp)
    exact ⟨f, hf, hsame⟩
  · rintro ⟨f, hf, hsame⟩
    obtain ⟨p, hp, hpf⟩ := exists_mem_distinctRuns (List.mem_map_of_mem (f := Finding.file) hf)
    exact ⟨p, hp, (Path.same_congr hpf q).trans hsame⟩
  · rw [length_distinctRuns horder, List.map_map]
    rfl

end Workspace

end DocAudit
