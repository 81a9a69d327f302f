import DocAudit.Command
import DocAudit.Proofs.CacheRun
import Mathlib.Data.Finset.Card

/-!
# Findings grouped by file

A report starts a new list whenever the file changes from one finding to the next, and the summary
counts the files in the same way: neither looks further back than one finding. That is enough when
the findings are in the order of their files, because then all findings of a file stand together.

* `InOrder`: paths in order, each as often as it likes.
* `pairwise_distinctRuns`, `length_distinctRuns`: of paths in order, the runs are the paths.
* `markdownReport_eq`: of findings in order, the report has one section for each file.
-/

namespace DocAudit

open checkSummary (distinctRuns)

/-- Paths in order. The same path may stand there several times. -/
def InOrder (ps : List Path) : Prop := ps.Pairwise fun p q => ¬ q.before p = true

/-- The findings of a file in a report, in their order. -/
def fileBullets (findings : List Finding) (file : Path) : Text :=
  (findings.filter (·.file.same file)).flatMap Finding.bullet

/-- The section of a file in a report: a heading, and the findings of the file. -/
def fileSection (findings : List Finding) (file : Path) : Text :=
  "## " ++ file.text ++ "\n\n" ++ fileBullets findings file

/-! ## Runs of the same path -/

section Runs

variable {p q : Path} {ps : List Path}

theorem distinctRuns_sublist (ps : List Path) : (distinctRuns ps).Sublist ps := by
  fun_induction distinctRuns ps with
  | case1 => exact List.Sublist.refl _
  | case2 p => exact List.Sublist.refl _
  | case3 p q rest hsame ih =>
    exact ih.trans (List.Sublist.cons_cons p (List.sublist_cons_self q rest))
  | case4 p q rest hne ih => exact ih.cons_cons p

theorem distinctRuns_nil : distinctRuns [] = [] := by rw [distinctRuns]

theorem distinctRuns_singleton (p : Path) : distinctRuns [p] = [p] := by rw [distinctRuns]

theorem distinctRuns_cons (p : Path) (ps : List Path) :
    distinctRuns (p :: ps) = p :: (distinctRuns (p :: ps)).tail := by
  induction ps with
  | nil => rw [distinctRuns_singleton, List.tail_cons]
  | cons q rest ih =>
    rw [distinctRuns]
    by_cases hsame : p.same q = true
    · rw [if_pos hsame]
      exact ih
    · rw [if_neg hsame]
      rfl

/-- What follows the first run does not depend on how its path is spelled. -/
theorem tail_distinctRuns_congr (h : p.same q = true) (ps : List Path) :
    (distinctRuns (p :: ps)).tail = (distinctRuns (q :: ps)).tail := by
  induction ps with
  | nil => rw [distinctRuns_singleton, distinctRuns_singleton, List.tail_cons, List.tail_cons]
  | cons r rest ih =>
    rw [distinctRuns, distinctRuns, Path.same_congr h]
    by_cases hsame : q.same r = true
    · rw [if_pos hsame, if_pos hsame]
      exact ih
    · rw [if_neg hsame, if_neg hsame, List.tail_cons, List.tail_cons]

theorem exists_mem_distinctRuns (h : q ∈ ps) : ∃ p ∈ distinctRuns ps, p.same q = true := by
  fun_induction distinctRuns ps with
  | case1 => exact absurd h List.not_mem_nil
  | case2 p =>
    rw [List.mem_singleton.1 h]
    exact ⟨p, List.mem_cons_self, Path.same_refl p⟩
  | case3 p r rest hsame ih =>
    rcases List.mem_cons.1 h with rfl | h
    · exact ih List.mem_cons_self
    · rcases List.mem_cons.1 h with rfl | h
      · refine ⟨p, ?_, hsame⟩
        rw [distinctRuns_cons]
        exact List.mem_cons_self
      · exact ih (List.mem_cons_of_mem p h)
  | case4 p r rest hne ih =>
    rcases List.mem_cons.1 h with rfl | h
    · exact ⟨q, List.mem_cons_self, Path.same_refl q⟩
    · obtain ⟨p', hp', hsame'⟩ := ih h
      exact ⟨p', List.mem_cons_of_mem p hp', hsame'⟩

/-- **Of paths in order the runs are in strict order**, so that there is one run for each path. -/
theorem pairwise_distinctRuns (h : InOrder ps) :
    (distinctRuns ps).Pairwise fun p q => p.before q = true := by
  fun_induction distinctRuns ps with
  | case1 => exact List.Pairwise.nil
  | case2 p => exact List.pairwise_singleton _ _
  | case3 p q rest hsame ih =>
    exact ih (List.Pairwise.sublist (List.Sublist.cons_cons p (List.sublist_cons_self q rest)) h)
  | case4 p q rest hne ih =>
    obtain ⟨hfirst, hrest⟩ := List.pairwise_cons.1 h
    have hpq : p.before q = true := Path.before_of_not_same hne (hfirst q List.mem_cons_self)
    refine List.pairwise_cons.2 ⟨fun r hr => ?_, ih hrest⟩
    -- The next run starts with `q`, and no later one lies before it.
    rw [distinctRuns_cons] at hr
    rcases List.mem_cons.1 hr with rfl | hr
    · exact hpq
    · have hruns := ih hrest
      rw [distinctRuns_cons] at hruns
      exact Path.before_trans hpq ((List.pairwise_cons.1 hruns).1 r hr)

theorem length_distinctRuns (h : InOrder ps) :
    (distinctRuns ps).length = (ps.map Path.components).toFinset.card := by
  have hnodup : ((distinctRuns ps).map Path.components).Nodup := by
    refine List.pairwise_map.2 ((pairwise_distinctRuns h).imp fun hpq heq => ?_)
    exact Path.not_same_of_before hpq (Path.same_iff.2 heq)
  have hsame : (ps.map Path.components).toFinset =
      ((distinctRuns ps).map Path.components).toFinset := by
    ext components
    simp only [List.mem_toFinset, List.mem_map]
    constructor
    · rintro ⟨q, hq, rfl⟩
      obtain ⟨p, hp, hpq⟩ := exists_mem_distinctRuns hq
      exact ⟨p, hp, Path.same_iff.1 hpq⟩
    · rintro ⟨p, hp, rfl⟩
      exact ⟨p, (distinctRuns_sublist ps).subset hp, rfl⟩
  rw [hsame, List.toFinset_card_of_nodup hnodup, List.length_map]

end Runs

/-! ## Reports -/

section Reports

variable {p q : Path} {f : Finding}

theorem fileBullets_cons_of_same (h : f.file.same p = true) (findings : List Finding) :
    fileBullets (f :: findings) p = f.bullet ++ fileBullets findings p := by
  have hfilter : (f :: findings).filter (·.file.same p) = f :: findings.filter (·.file.same p) :=
    List.filter_cons_of_pos h
  rw [fileBullets, hfilter, List.flatMap_cons, fileBullets]

theorem fileBullets_cons_of_not_same (h : ¬ f.file.same p = true) (findings : List Finding) :
    fileBullets (f :: findings) p = fileBullets findings p := by
  have hfilter : (f :: findings).filter (·.file.same p) = findings.filter (·.file.same p) :=
    List.filter_cons_of_neg h
  rw [fileBullets, hfilter, fileBullets]

theorem fileBullets_congr (h : p.same q = true) (findings : List Finding) :
    fileBullets findings p = fileBullets findings q := by
  have hsame (r : Path) : r.same p = r.same q := by
    rw [Path.same_comm, Path.same_congr h, Path.same_comm]
  simp only [fileBullets, hsame]

theorem fileBullets_eq_nil {findings : List Finding}
    (h : ∀ f ∈ findings, ¬ f.file.same p = true) : fileBullets findings p = [] := by
  rw [fileBullets, List.filter_eq_nil_iff.2 h, List.flatMap_nil]

/-- The sections below a list. -/
def laterSections (findings : List Finding) (files : List Path) : Text :=
  files.flatMap fun file => '\n' :: fileSection findings file

theorem laterSections_cons_file (findings : List Finding) (file : Path) (files : List Path) :
    laterSections findings (file :: files) =
      '\n' :: (fileSection findings file ++ laterSections findings files) := List.flatMap_cons

/-- A finding of an earlier file shows in no later section. -/
theorem laterSections_cons {files : List Path} (h : ∀ q ∈ files, f.file.before q = true)
    (findings : List Finding) :
    laterSections (f :: findings) files = laterSections findings files := by
  simp only [laterSections, List.flatMap_def]
  congr 1
  refine List.map_congr_left fun q hq => ?_
  rw [fileSection, fileSection, fileBullets_cons_of_not_same (Path.not_same_of_before (h q hq))]

theorem before_of_mem_tail_distinctRuns {ps : List Path} (h : InOrder (p :: ps)) :
    ∀ q ∈ (distinctRuns (p :: ps)).tail, p.before q = true := by
  have hruns := pairwise_distinctRuns h
  rw [distinctRuns_cons] at hruns
  exact (List.pairwise_cons.1 hruns).1

/-- The rest of a report below the heading of a file: first the findings of that file, and then the
sections of the later files. -/
theorem markdownFrom_eq {findings : List Finding} (h : InOrder (p :: findings.map (·.file))) :
    markdownFrom (some p) findings =
      fileBullets findings p ++
        laterSections findings (distinctRuns (p :: findings.map (·.file))).tail := by
  induction findings generalizing p with
  | nil =>
    rw [List.map_nil, distinctRuns_singleton]
    rfl
  | cons f rest ih =>
    rw [List.map_cons] at h ⊢
    obtain ⟨hfirst, hrest⟩ := List.pairwise_cons.1 h
    have hlater := laterSections_cons (before_of_mem_tail_distinctRuns hrest) rest
    rw [markdownFrom, ih hrest, distinctRuns, Option.any_some]
    by_cases hsame : p.same f.file = true
    · have hfile : f.file.same p = true := by rwa [Path.same_comm]
      rw [if_pos hfile, if_pos hsame, tail_distinctRuns_congr hsame, hlater,
        fileBullets_cons_of_same hfile, fileBullets_congr hfile, List.nil_append,
        List.append_assoc]
    · have hfile : ¬ f.file.same p = true := by rwa [Path.same_comm]
      have hbefore : p.before f.file = true :=
        Path.before_of_not_same hsame (hfirst f.file List.mem_cons_self)
      -- The list of `p` is complete, since no later finding is of an earlier file.
      have hdone : fileBullets (f :: rest) p = [] := by
        refine fileBullets_eq_nil fun g hg hgp => ?_
        rcases List.mem_cons.1 hg with rfl | hg
        · exact hfile hgp
        · have hfg := (List.pairwise_cons.1 hrest).1 g.file (List.mem_map_of_mem hg)
          rw [Path.before_congr_left hgp] at hfg
          exact hfg hbefore
      have hheading : fileHeading f.file (some p) = '\n' :: ("## " ++ f.file.text ++ "\n\n") := rfl
      rw [if_neg hfile, if_neg hsame, hdone, List.tail_cons, distinctRuns_cons, List.tail_cons,
        laterSections_cons_file, hlater, fileSection, fileBullets_cons_of_same (Path.same_refl _),
        hheading]
      simp only [List.append_assoc, List.cons_append, List.nil_append]

theorem intercalate_cons (separator t : Text) (ts : List Text) :
    List.intercalate separator (t :: ts) = t ++ ts.flatMap (separator ++ ·) := by
  induction ts generalizing t with
  | nil => rw [List.intercalate_singleton, List.flatMap_nil, List.append_nil]
  | cons u ts ih =>
    rw [List.intercalate_cons_cons, ih, List.flatMap_cons, List.append_assoc, List.append_assoc]

/-- **Of findings in the order of their files, a report has one section for each file**, with an
empty line between any two. -/
theorem markdownReport_eq {findings : List Finding} (h : InOrder (findings.map (·.file))) :
    markdownReport findings =
      List.intercalate "\n"
        ((distinctRuns (findings.map (·.file))).map (fileSection findings)) := by
  cases findings with
  | nil =>
    rw [List.map_nil, distinctRuns_nil, List.map_nil, List.intercalate_nil]
    rfl
  | cons f rest =>
    have hheading : fileHeading f.file none = "## " ++ f.file.text ++ "\n\n" := rfl
    have hlater := laterSections_cons (before_of_mem_tail_distinctRuns h) rest
    rw [markdownReport, markdownFrom, Option.any_none, if_neg Bool.false_ne_true, markdownFrom_eq h,
      List.map_cons, distinctRuns_cons, List.map_cons, intercalate_cons, List.flatMap_map,
      List.tail_cons, ← hlater, laterSections, fileSection,
      fileBullets_cons_of_same (Path.same_refl _), hheading]
    simp only [List.append_assoc]
    rfl

end Reports

end DocAudit
