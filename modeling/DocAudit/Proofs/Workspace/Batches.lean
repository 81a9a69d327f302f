import DocAudit.Proofs.Workspace.Scan

/-!
# Scanning in batches

A scan reads the sources of a workspace in batches and looks before each batch whether it has been
cancelled. What it leaves behind is what reading some first sources one by one leaves: all of those
in the batches before the cancellation is seen.

* `Workspace.readInto`, `Workspace.reportOn`: one file read into a cache, and the counts for some
  files.
* `take_flatten_batches`, `lt_length_batches_iff`: some first batches are some first members.
* `Workspace.scanBatches_eq`: the scan of some batches.
* `Workspace.scan_eq_readInto`: the whole scan.
-/

namespace DocAudit

/-! ## Batches -/

section Batches

variable {α : Type} {size : Nat}

/-- **Some first batches** hold the first members of the list, `size` in each batch. -/
theorem take_flatten_batches (hsize : 1 ≤ size) (k : Nat) (xs : List α) :
    ((batches size xs).take k).flatten = xs.take (k * size) := by
  induction k generalizing xs with
  | zero => rw [List.take_zero, Nat.zero_mul, List.take_zero, List.flatten_nil]
  | succ k ih =>
    cases xs with
    | nil => rw [batches, List.take_nil, List.take_nil, List.flatten_nil]
    | cons x rest =>
      obtain ⟨n, rfl⟩ := Nat.exists_eq_add_of_le' hsize
      rw [batches, List.take_succ_cons, List.flatten_cons, ih, Nat.add_sub_cancel, Nat.succ_mul,
        Nat.add_comm (k * (n + 1)), List.take_add, List.take_succ_cons, List.drop_succ_cons]

theorem lt_length_batches_iff (hsize : 1 ≤ size) (k : Nat) (xs : List α) :
    k < (batches size xs).length ↔ k * size < xs.length := by
  induction k generalizing xs with
  | zero =>
    rw [Nat.zero_mul]
    cases xs with
    | nil =>
      rw [batches]
      exact Iff.rfl
    | cons x rest =>
      rw [batches]
      exact iff_of_true (Nat.succ_pos _) (Nat.succ_pos _)
  | succ k ih =>
    cases xs with
    | nil =>
      rw [batches]
      exact iff_of_false (Nat.not_lt_zero _) (Nat.not_lt_zero _)
    | cons x rest =>
      rw [batches, List.length_cons, Nat.succ_lt_succ_iff, ih, List.length_drop, List.length_cons,
        Nat.succ_mul]
      omega

end Batches

/-! ## Cancellation -/

/-- A cancellation is first seen before batch `k`, counted from zero, or never. -/
def FirstSeen (cancelled : Nat → Bool) : Option Nat → Prop
  | some k => cancelled k = true ∧ ∀ i < k, cancelled i = false
  | none => ∀ i, cancelled i = false

/-- How many of `n` files are in the batches before the one where a cancellation is seen. -/
def handledCount (size n : Nat) : Option Nat → Nat
  | some k => min (k * size) n
  | none => n

namespace Workspace

variable {w : Workspace} {d : Disk} {scan : Scan} {cancelled : Nat → Bool}

/-! ## One file -/

/-- Whether the file at a path can be read. -/
def isReadable (w : Workspace) (d : Disk) (path : Path) : Bool := (readSource d w.root path).isOk

/-- The cache with one file read: its entry is what the file declares now, or as it was if the file
cannot be read. -/
def readInto (w : Workspace) (d : Disk) (c : Cache) (path : Path) : Cache :=
  if w.isReadable d path then c.replace path (w.objectAt? d path) else c

/-- How many of some files declare an object, declare none, and cannot be read. -/
def reportOn (w : Workspace) (d : Disk) (paths : List Path) : ScanReport where
  built := paths.countP fun path => (w.objectAt? d path).isSome
  withoutObject := paths.countP fun path => w.isReadable d path && (w.objectAt? d path).isNone
  skipped := paths.countP fun path => !w.isReadable d path

/-- What there is to say about a file: it cannot be read, or it declares what it declares. -/
theorem analyze_cases (w : Workspace) (d : Disk) (path : Path) :
    (∃ failure, analyze d w.root path w.config.settings = .error failure ∧
        w.isReadable d path = false ∧ w.objectAt? d path = none) ∨
      (analyze d w.root path w.config.settings = .ok (w.objectAt? d path) ∧
        w.isReadable d path = true) := by
  rw [objectAt?, isReadable, analyze]
  cases readSource d w.root path with
  | error failure => exact Or.inl ⟨failure, rfl, rfl, rfl⟩
  | ok f => exact Or.inr ⟨rfl, rfl⟩

theorem cache_add (scan : Scan) (path : Path) :
    (scan.add path (analyze d w.root path w.config.settings)).cache =
      w.readInto d scan.cache path := by
  rcases analyze_cases w d path with ⟨failure, hf, hr, -⟩ | ⟨hf, hr⟩
  · rw [readInto, hr, hf]
    rfl
  · rw [readInto, hr, if_pos rfl]
    cases ho : w.objectAt? d path with
    | none =>
      rw [hf, ho]
      rfl
    | some o =>
      rw [ho] at hf
      rw [hf, Scan.add, Cache.insert, file_of_analyze hf]
      rfl

theorem report_add (scan : Scan) (path : Path) :
    (scan.add path (analyze d w.root path w.config.settings)).report =
      { built := scan.report.built + (w.reportOn d [path]).built
        cancelled := scan.report.cancelled
        skipped := scan.report.skipped + (w.reportOn d [path]).skipped
        withoutObject := scan.report.withoutObject + (w.reportOn d [path]).withoutObject } := by
  simp only [reportOn, List.countP_singleton]
  rcases analyze_cases w d path with ⟨failure, hf, hr, ho⟩ | ⟨hf, hr⟩
  · rw [hf, hr, ho]
    rfl
  · rw [hf, hr]
    cases w.objectAt? d path <;> rfl

/-! ## Files one by one -/

theorem cache_scanFiles (scan : Scan) (paths : List Path) :
    (w.scanFiles d scan paths).cache = paths.foldl (w.readInto d) scan.cache := by
  induction paths generalizing scan with
  | nil => rfl
  | cons path paths ih => rw [scanFiles_cons, ih, cache_add, List.foldl_cons]

theorem report_scanFiles (scan : Scan) (paths : List Path) :
    (w.scanFiles d scan paths).report =
      { built := scan.report.built + (w.reportOn d paths).built
        cancelled := scan.report.cancelled
        skipped := scan.report.skipped + (w.reportOn d paths).skipped
        withoutObject := scan.report.withoutObject + (w.reportOn d paths).withoutObject } := by
  induction paths generalizing scan with
  | nil => rfl
  | cons path paths ih =>
    rw [scanFiles_cons, ih, report_add, ← List.singleton_append (l := paths)]
    simp only [reportOn, List.countP_append, Nat.add_assoc]

/-- Every file is counted once. -/
theorem reportOn_sum (paths : List Path) :
    (w.reportOn d paths).built + (w.reportOn d paths).withoutObject +
      (w.reportOn d paths).skipped = paths.length := by
  induction paths with
  | nil => rfl
  | cons path paths ih =>
    simp only [reportOn, List.countP_cons, List.length_cons] at ih ⊢
    rcases analyze_cases w d path with ⟨failure, -, hr, ho⟩ | ⟨-, hr⟩
    · simp only [hr, ho, Option.isSome_none, Bool.false_and, Bool.not_false, if_true,
        Bool.false_eq_true, if_false]
      omega
    · cases ho : w.objectAt? d path with
      | none =>
        simp only [hr, Option.isSome_none, Option.isNone_none, Bool.and_self, Bool.not_true,
          if_true, Bool.false_eq_true, if_false]
        omega
      | some o =>
        simp only [hr, Option.isSome_some, Option.isNone_some, Bool.and_false, Bool.not_true,
          if_true, Bool.false_eq_true, if_false]
        omega

/-! ## Batch after batch -/

/-- **The scan of some batches** reads those before the first that finds it cancelled. -/
theorem scanBatches_eq {k : Nat} (bs : List (List Path)) (first : Nat)
    (hbefore : ∀ i < k, cancelled (first + i) = false)
    (hstop : cancelled (first + k) = true ∨ bs.length ≤ k) :
    w.scanBatches d cancelled first scan bs =
      let read := w.scanFiles d scan (bs.take k).flatten
      if k < bs.length then { read with report := { read.report with cancelled := true } }
      else read := by
  induction bs generalizing scan first k with
  | nil => rw [scanBatches, List.take_nil]; rfl
  | cons batch rest ih =>
    rw [scanBatches]
    cases k with
    | zero =>
      have hnow : cancelled first = true :=
        hstop.resolve_right (Nat.not_le.2 (Nat.succ_pos _))
      rw [if_pos hnow]
      rfl
    | succ k =>
      have hgo : ¬ cancelled first = true := by
        rw [show first = first + 0 from rfl, hbefore 0 (Nat.succ_pos k)]
        exact Bool.false_ne_true
      have hshift (i : Nat) : first + 1 + i = first + (i + 1) := by omega
      rw [if_neg hgo, ih (k := k)]
      · simp only [List.take_succ_cons, List.flatten_cons, scanFiles_append, List.length_cons,
          Nat.succ_lt_succ_iff]
      · intro i hi
        rw [hshift]
        exact hbefore (i + 1) (Nat.succ_lt_succ hi)
      · rw [hshift]
        exact hstop.imp id Nat.le_of_succ_le_succ

/-! ## The whole scan -/

/-- The sources that a scan handles when a cancellation is first seen before batch `k`. -/
def handled (w : Workspace) (d : Disk) (k : Option Nat) : List Path :=
  (w.sources d).take (handledCount w.config.batchSize (w.sources d).length k)

/-- A scan reads the sources it handles one by one, and says so if there are others. -/
theorem scan_eq_scanFiles (hsize : 1 ≤ w.config.batchSize) {k : Option Nat}
    (hseen : FirstSeen cancelled k) (c : Cache) :
    w.scan d cancelled c =
      let read := w.scanFiles d { cache := c } (w.handled d k)
      if (w.handled d k).length < (w.sources d).length then
        { read with report := { read.report with cancelled := true } }
      else read := by
  rw [Workspace.scan]
  cases k with
  | none =>
    have hall : w.handled d none = w.sources d := List.take_length
    have hstop : (batches w.config.batchSize (w.sources d)).length ≤ (w.sources d).length := by
      rw [← Nat.not_lt, lt_length_batches_iff hsize, Nat.not_lt]
      exact Nat.le_mul_of_pos_right _ hsize
    rw [scanBatches_eq (k := (w.sources d).length) _ 0 (fun i _ => hseen _) (Or.inr hstop), hall]
    simp only [take_flatten_batches hsize, Nat.not_lt.2 hstop, Nat.lt_irrefl, if_false]
    rw [List.take_of_length_le (Nat.le_mul_of_pos_right _ hsize)]
  | some k =>
    have htake : w.handled d (some k) = (w.sources d).take (k * w.config.batchSize) :=
      List.take_eq_take_min.symm
    have hlength : (w.handled d (some k)).length < (w.sources d).length ↔
        k < (batches w.config.batchSize (w.sources d)).length := by
      rw [lt_length_batches_iff hsize, htake, List.length_take]
      omega
    rw [scanBatches_eq (k := k) _ 0 (fun i hi => by rw [Nat.zero_add]; exact hseen.2 i hi)
      (Or.inl (by rw [Nat.zero_add]; exact hseen.1))]
    simp only [take_flatten_batches hsize, ← htake, hlength]

/-- The workspace read in batches of another size. -/
def withBatchSize (w : Workspace) (size : Nat) : Workspace :=
  { w with config := { w.config with batchSize := size } }

theorem length_handled_lt_iff (hsize : 1 ≤ w.config.batchSize) (k : Option Nat) :
    (w.handled d k).length < (w.sources d).length ↔
      k.any (· < (batches w.config.batchSize (w.sources d)).length) = true := by
  cases k with
  | none =>
    rw [handled, handledCount, List.take_length]
    exact iff_of_false (Nat.lt_irrefl _) Bool.false_ne_true
  | some k =>
    rw [handled, handledCount, List.length_take, Option.any_some, decide_eq_true_iff,
      lt_length_batches_iff hsize]
    omega

theorem cache_scan (hsize : 1 ≤ w.config.batchSize) {k : Option Nat}
    (hseen : FirstSeen cancelled k) (c : Cache) :
    (w.scan d cancelled c).cache = (w.scanFiles d { cache := c } (w.handled d k)).cache := by
  rw [scan_eq_scanFiles hsize hseen]
  simp only
  split <;> rfl

theorem report_scan (hsize : 1 ≤ w.config.batchSize) {k : Option Nat}
    (hseen : FirstSeen cancelled k) (c : Cache) :
    (w.scan d cancelled c).report =
      { w.reportOn d (w.handled d k) with
        cancelled := k.any (· < (batches w.config.batchSize (w.sources d)).length) } := by
  have hleft := length_handled_lt_iff (w := w) (d := d) hsize k
  rw [scan_eq_scanFiles hsize hseen]
  cases hk : k.any (· < (batches w.config.batchSize (w.sources d)).length) with
  | true =>
    rw [hk] at hleft
    simp only [if_pos (hleft.2 rfl), report_scanFiles, Nat.zero_add]
  | false =>
    rw [hk] at hleft
    simp only [if_neg fun h => Bool.false_ne_true (hleft.1 h), report_scanFiles, Nat.zero_add]

theorem scan_withBatchSize (hseen : FirstSeen cancelled none) (size : Nat) (c : Cache) :
    (w.withBatchSize size).scan d cancelled c = w.scan d cancelled c := by
  obtain rfl : cancelled = fun _ => false := funext hseen
  rw [Workspace.scan, Workspace.scan, scanBatches_never, scanBatches_never, flatten_batches,
    flatten_batches]
  rfl

/-- **A scan** that finds itself cancelled before batch `k`, or never, reads the sources of the
batches before it one by one. Nothing else in the cache changes, each of them is counted once, and
the report says whether a batch was left. A scan that is never cancelled does not depend on the size
of its batches. -/
theorem scan_eq_readInto (hsize : 1 ≤ w.config.batchSize) {k : Option Nat}
    (hseen : FirstSeen cancelled k) (c : Cache) :
    (w.scan d cancelled c).cache = (w.handled d k).foldl (w.readInto d) c ∧
      (∀ q, (∀ path ∈ w.handled d k, ¬ path.same q = true) →
        (w.scan d cancelled c).cache.get? q = c.get? q) ∧
      (w.scan d cancelled c).report =
        { w.reportOn d (w.handled d k) with
          cancelled := k.any (· < (batches w.config.batchSize (w.sources d)).length) } ∧
      (w.scan d cancelled c).report.built + (w.scan d cancelled c).report.withoutObject +
        (w.scan d cancelled c).report.skipped = (w.handled d k).length ∧
      (k = none → ∀ size,
        (w.withBatchSize size).scan d cancelled c = w.scan d cancelled c) := by
  refine ⟨?_, ?_, report_scan hsize hseen c, ?_, ?_⟩
  · rw [cache_scan hsize hseen, cache_scanFiles]
  · intro q hq
    rw [cache_scan hsize hseen, get?_scanFiles_of_not_same hq]
  · rw [report_scan hsize hseen]
    exact reportOn_sum _
  · rintro rfl size
    exact scan_withBatchSize hseen size c

/-- A disk of four files: an object, nothing, a file that is no text, and another object. -/
def fourFiles : Disk where
  entries := [(["A.al"], .file "codeunit 1 A".toUTF8), (["B.al"], .file "".toUTF8),
    (["C.al"], .file ⟨#[0xff]⟩), (["D.al"], .file "codeunit 4 D".toUTF8)]

/-- The same disk when the second and the third file declared objects. -/
def fourFilesBefore : Disk where
  entries := [(["B.al"], .file "codeunit 2 B".toUTF8), (["C.al"], .file "codeunit 3 C".toUTF8)]

/-- A workspace whose files are read one at a time. -/
def oneByOne : Workspace := { root := ⟨"/"⟩, config := { batchSize := 1 } }

theorem sources_fourFiles :
    oneByOne.sources fourFiles = [⟨"A.al"⟩, ⟨"B.al"⟩, ⟨"C.al"⟩, ⟨"D.al"⟩] := by
  rw [sources]
  have hsorted : [⟨"A.al"⟩, ⟨"B.al"⟩, ⟨"C.al"⟩, ⟨"D.al"⟩].Pairwise
      fun p q : Path => !q.before p := by
    decide
  exact List.mergeSort_of_pairwise hsorted

/-- Cancelled before the last file: the first has its entry, the second has lost it, the third keeps
it, and the last has none. -/
theorem scan_eq_readInto_fourFiles :
    1 ≤ oneByOne.config.batchSize ∧ FirstSeen (fun i => 3 ≤ i) (some 3) ∧
      let c := [⟨"B.al"⟩, ⟨"C.al"⟩].foldl (oneByOne.readInto fourFilesBefore) {}
      let scan := oneByOne.scan fourFiles (fun i => 3 ≤ i) c
      c.paths = [⟨"B.al"⟩, ⟨"C.al"⟩] ∧
        scan.cache.paths = [⟨"A.al"⟩, ⟨"C.al"⟩] ∧
        scan.report = { built := 1, withoutObject := 1, skipped := 1, cancelled := true } := by
  have hseen : FirstSeen (fun i => 3 ≤ i) (some 3) :=
    ⟨by decide, fun i hi => decide_eq_false (Nat.not_le.2 hi)⟩
  obtain ⟨hcache, -, hreport, -⟩ := scan_eq_readInto (w := oneByOne) (d := fourFiles) (by decide)
    hseen ([⟨"B.al"⟩, ⟨"C.al"⟩].foldl (oneByOne.readInto fourFilesBefore) {})
  have hhandled : oneByOne.handled fourFiles (some 3) = [⟨"A.al"⟩, ⟨"B.al"⟩, ⟨"C.al"⟩] := by
    rw [handled, sources_fourFiles]
    rfl
  have hleft : 3 < (batches oneByOne.config.batchSize (oneByOne.sources fourFiles)).length := by
    rw [lt_length_batches_iff (by decide), sources_fourFiles]
    decide
  refine ⟨by decide, hseen, by decide +kernel, ?_, ?_⟩
  · simp only [hcache, hhandled]
    decide +kernel
  · simp only [hreport, hhandled, Option.any_some, hleft, decide_true]
    decide +kernel

end Workspace

end DocAudit
