import DocAudit.Proofs.Cache
import DocAudit.Proofs.PathOrder
import Mathlib.Data.List.Induction

/-!
# A cache after any number of changes

What a cache says about a path is what the last change of that path left there. Paths are compared
by components, so that changes under two spellings of a path are changes of one entry. The entries
stand in the strict order of paths, which every change keeps and which makes each entry the only one
of its path.

* `Cache.Ordered`: the entries are in strict order.
* `Cache.Ordered.insertAt`, `Cache.Ordered.remove`, `Cache.Ordered.replace`: changes keep it.
* `Cache.entryOf?`, `Cache.Ordered.ext`: the entry of a path, by which a cache in order is given.
* `Cache.Operation`, `Cache.run`: changes, and a cache after some of them.
* `Cache.run_asMap`: that cache as a map.
-/

namespace DocAudit

namespace Path

theorem before_trans {p q r : Path} (hpq : p.before q = true) (hqr : q.before r = true) :
    p.before r = true := before_iff.2 ((before_iff.1 hpq).trans (before_iff.1 hqr))

theorem not_same_of_before {p q : Path} (h : p.before q = true) : ¬ p.same q = true :=
  mt same_iff_key.1 (before_iff.1 h).ne

theorem before_of_not_same {p q : Path} (hne : ¬ p.same q = true) (hnot : ¬ q.before p = true) :
    p.before q = true :=
  before_iff.2 (lt_of_le_of_ne (not_lt.1 (mt before_iff.2 hnot)) (mt same_iff_key.2 hne))

theorem before_congr_left {p q : Path} (h : p.same q = true) (r : Path) :
    p.before r = q.before r := by
  rw [before, before, same_iff.1 h]

theorem before_congr_right {p q : Path} (h : p.same q = true) (r : Path) :
    r.before p = r.before q := by
  rw [before, before, same_iff.1 h]

end Path

namespace Cache

/-! ## Entries in order -/

section Entries

variable {c : Cache} {path : Path} {o : SourceObject} {entry : Path × SourceObject}
  {entries : List (Path × SourceObject)}

/-- The entries stand in the strict order of their paths. -/
def Ordered (c : Cache) : Prop := c.entries.Pairwise fun a b => a.1.before b.1 = true

theorem ordered_nil : Ordered {} := List.Pairwise.nil

/-- An entry after an insertion is the new object under a spelling of its path, or an old entry. -/
theorem mem_insertEntry (h : entry ∈ insertEntry path o entries) :
    (entry.1.same path = true ∧ entry.2 = o) ∨ entry ∈ entries := by
  induction entries with
  | nil =>
    rw [insertEntry, List.mem_singleton] at h
    rw [h]
    exact Or.inl ⟨Path.same_refl path, rfl⟩
  | cons first rest ih =>
    obtain ⟨p, old⟩ := first
    rw [insertEntry] at h
    by_cases hp : p.same path = true
    · rw [if_pos hp] at h
      rcases List.mem_cons.1 h with rfl | hrest
      · exact Or.inl ⟨hp, rfl⟩
      · exact Or.inr (List.mem_cons_of_mem _ hrest)
    · rw [if_neg hp] at h
      by_cases hb : path.before p = true
      · rw [if_pos hb] at h
        rcases List.mem_cons.1 h with rfl | hold
        · exact Or.inl ⟨Path.same_refl path, rfl⟩
        · exact Or.inr hold
      · rw [if_neg hb] at h
        rcases List.mem_cons.1 h with rfl | hrest
        · exact Or.inr List.mem_cons_self
        · exact (ih hrest).imp id (List.mem_cons_of_mem _)

theorem pairwise_insertEntry (h : entries.Pairwise fun a b => a.1.before b.1 = true) (path : Path)
    (o : SourceObject) :
    (insertEntry path o entries).Pairwise fun a b => a.1.before b.1 = true := by
  induction entries with
  | nil => exact List.pairwise_singleton _ _
  | cons first rest ih =>
    obtain ⟨p, old⟩ := first
    obtain ⟨hfirst, hrest⟩ := List.pairwise_cons.1 h
    rw [insertEntry]
    by_cases hp : p.same path = true
    · rw [if_pos hp]
      exact List.pairwise_cons.2 ⟨hfirst, hrest⟩
    · rw [if_neg hp]
      by_cases hb : path.before p = true
      · rw [if_pos hb]
        refine List.pairwise_cons.2 ⟨fun entry he => ?_, h⟩
        rcases List.mem_cons.1 he with rfl | he
        · exact hb
        · exact Path.before_trans hb (hfirst entry he)
      · rw [if_neg hb]
        refine List.pairwise_cons.2 ⟨fun entry he => ?_, ih hrest⟩
        rcases mem_insertEntry he with ⟨hsame, -⟩ | he
        · rw [Path.before_congr_right hsame]
          exact Path.before_of_not_same hp hb
        · exact hfirst entry he

namespace Ordered

theorem insertAt (h : c.Ordered) (path : Path) (o : SourceObject) : (c.insertAt path o).Ordered :=
  pairwise_insertEntry h path o

theorem remove (h : c.Ordered) (path : Path) : (c.remove path).Ordered := List.Pairwise.filter _ h

theorem replace (h : c.Ordered) (path : Path) (found : Option SourceObject) :
    (c.replace path found).Ordered := by
  cases found with
  | some o => exact h.insertAt path o
  | none => exact h.remove path

theorem paths (h : c.Ordered) : c.paths.Pairwise fun p q => p.before q = true :=
  List.pairwise_map.2 h

/-- A path with an object is listed once, in one of its spellings, and no other path is. -/
theorem countP_paths (h : c.Ordered) (q : Path) :
    c.paths.countP (·.same q) = if (c.get? q).isSome then 1 else 0 := by
  obtain ⟨entries⟩ := c
  rw [Ordered] at h
  rw [Cache.paths]
  simp only at h ⊢
  induction entries with
  | nil => rfl
  | cons first rest ih =>
    obtain ⟨p, o⟩ := first
    obtain ⟨hfirst, hrest⟩ := List.pairwise_cons.1 h
    rw [List.map_cons, List.countP_cons, get?_cons]
    by_cases hp : p.same q = true
    · -- All other paths come after this one, so that none of them is the same.
      have hnone : (rest.map (·.1)).countP (·.same q) = 0 := by
        rw [List.countP_eq_zero]
        intro p' hp' hsame
        obtain ⟨entry, he, rfl⟩ := List.mem_map.1 hp'
        rw [Path.same_comm, ← Path.same_congr hp] at hsame
        exact Path.not_same_of_before (hfirst entry he) hsame
      rw [hnone, if_pos hp, if_pos hp, Option.isSome_some, if_pos rfl]
    · rw [if_neg hp, if_neg hp, Nat.add_zero]
      exact ih hrest

end Ordered

end Entries

/-! ## Entries path by path -/

section Paths

variable {c c' : Cache} {path q : Path} {entry : Path × SourceObject}

/-- The entry of a path: the path as first written, and its object. -/
def entryOf? (c : Cache) (q : Path) : Option (Path × SourceObject) :=
  c.entries.find? fun entry => entry.1.same q

theorem entryOf?_nil (q : Path) : (⟨[]⟩ : Cache).entryOf? q = none := rfl

theorem entryOf?_cons (p : Path) (o : SourceObject) (rest : List (Path × SourceObject)) (q : Path) :
    (⟨(p, o) :: rest⟩ : Cache).entryOf? q =
      if p.same q then some (p, o) else (⟨rest⟩ : Cache).entryOf? q := by
  rw [entryOf?, List.find?_cons]
  cases p.same q <;> rfl

/-- The entry that a path has in place of an old one: it keeps its first spelling. -/
def entryAfter (path : Path) (found : Option SourceObject) (old : Option (Path × SourceObject)) :
    Option (Path × SourceObject) :=
  found.map fun o => ((old.map (·.1)).getD path, o)

/-- In a cache in order the first entry of a path is the only one. -/
theorem Ordered.entryOf?_eq_some_iff (h : c.Ordered) :
    c.entryOf? q = some entry ↔ entry ∈ c.entries ∧ entry.1.same q = true := by
  obtain ⟨entries⟩ := c
  induction entries with
  | nil => exact iff_of_false nofun fun h => List.not_mem_nil h.1
  | cons first rest ih =>
    obtain ⟨p, o⟩ := first
    obtain ⟨hfirst, hrest⟩ := List.pairwise_cons.1 h
    rw [entryOf?_cons, List.mem_cons]
    by_cases hp : p.same q = true
    · rw [if_pos hp, Option.some_inj]
      constructor
      · rintro rfl
        exact ⟨Or.inl rfl, hp⟩
      · rintro ⟨rfl | hmem, hsame⟩
        · rfl
        · rw [Path.same_comm, ← Path.same_congr hp] at hsame
          exact absurd hsame (Path.not_same_of_before (hfirst entry hmem))
    · rw [if_neg hp, ih hrest]
      constructor
      · exact fun hmem => ⟨Or.inr hmem.1, hmem.2⟩
      · rintro ⟨rfl | hmem, hsame⟩
        · exact absurd hsame hp
        · exact ⟨hmem, hsame⟩

/-- **A cache in order is given by the entries of its paths.** -/
theorem Ordered.ext (h : c.Ordered) (h' : c'.Ordered) (heq : ∀ q, c.entryOf? q = c'.entryOf? q) :
    c = c' := by
  have hmem (entry : Path × SourceObject) : entry ∈ c.entries ↔ entry ∈ c'.entries := by
    have hc : c.entryOf? entry.1 = some entry ↔
        entry ∈ c.entries ∧ entry.1.same entry.1 = true := h.entryOf?_eq_some_iff
    have hc' : c'.entryOf? entry.1 = some entry ↔
        entry ∈ c'.entries ∧ entry.1.same entry.1 = true := h'.entryOf?_eq_some_iff
    rw [heq, hc'] at hc
    simpa only [Path.same_refl, and_true] using hc.symm
  have hnodup {c : Cache} (h : c.Ordered) : c.entries.Nodup := by
    refine List.Pairwise.imp (fun {a b} hab heq => ?_) h
    subst heq
    exact Path.not_same_of_before hab (Path.same_refl a.1)
  have hperm := (List.perm_ext_iff_of_nodup (hnodup h) (hnodup h')).2 hmem
  have hentries : c.entries = c'.entries := by
    refine hperm.eq_of_pairwise (fun a b _ _ hab hba => ?_) h h'
    exact absurd (Path.same_refl a.1) (Path.not_same_of_before (Path.before_trans hab hba))
  obtain ⟨entries⟩ := c
  obtain ⟨entries'⟩ := c'
  exact congrArg Cache.mk hentries

theorem entryOf?_congr (c : Cache) {p q : Path} (h : p.same q = true) :
    c.entryOf? p = c.entryOf? q := by
  rw [Path.same_iff] at h
  simp only [entryOf?, Path.same, h]

theorem entryOf?_remove (c : Cache) (path q : Path) :
    (c.remove path).entryOf? q = if path.same q then none else c.entryOf? q := by
  rw [entryOf?, remove, List.find?_filter]
  by_cases hq : path.same q = true
  · rw [if_pos hq, List.find?_eq_none]
    intro entry _ h
    obtain ⟨hne, hsame⟩ := of_decide_eq_true h
    rw [Bool.not_eq_true', ← Bool.not_eq_true, Path.same_iff] at hne
    exact hne ((Path.same_iff.1 hsame).trans (Path.same_iff.1 hq).symm)
  · rw [if_neg hq, entryOf?]
    refine congrArg (List.find? · c.entries) (funext fun entry => ?_)
    rw [Bool.eq_iff_iff, decide_eq_true_iff, and_iff_right_iff_imp, Bool.not_eq_true',
      ← Bool.not_eq_true]
    intro hsame hpath
    exact hq (Path.same_iff.2 ((Path.same_iff.1 hpath).symm.trans (Path.same_iff.1 hsame)))

theorem Ordered.entryOf?_insertAt (h : c.Ordered) (path : Path) (o : SourceObject) (q : Path) :
    (c.insertAt path o).entryOf? q =
      if path.same q then some (((c.entryOf? path).map (·.1)).getD path, o) else c.entryOf? q := by
  obtain ⟨entries⟩ := c
  rw [Cache.insertAt]
  simp only
  induction entries with
  | nil => rw [insertEntry, entryOf?_cons, entryOf?_nil]; rfl
  | cons first rest ih =>
    obtain ⟨p, old⟩ := first
    obtain ⟨hfirst, hrest⟩ := List.pairwise_cons.1 h
    rw [insertEntry]
    by_cases hp : p.same path = true
    · rw [if_pos hp, entryOf?_cons, entryOf?_cons, entryOf?_cons, if_pos hp, Path.same_congr hp]
      split <;> rfl
    · rw [if_neg hp, entryOf?_cons p old rest path, if_neg hp]
      by_cases hb : path.before p = true
      · -- Every entry comes after the path, so that none is its own.
        have hnone : (⟨rest⟩ : Cache).entryOf? path = none := by
          refine List.find?_eq_none.2 fun entry he hsame => ?_
          rw [Path.same_comm] at hsame
          exact Path.not_same_of_before (Path.before_trans hb (hfirst entry he)) hsame
        rw [if_pos hb, entryOf?_cons, hnone]
        rfl
      · rw [if_neg hb, entryOf?_cons, entryOf?_cons, ih hrest]
        by_cases hpq : p.same q = true
        · have hq : ¬ path.same q = true := fun hq =>
            hp (by rw [Path.same_congr hpq, Path.same_comm]; exact hq)
          simp only [if_pos hpq, if_neg hq]
        · simp only [if_neg hpq]

theorem Ordered.entryOf?_replace (h : c.Ordered) (path : Path) (found : Option SourceObject)
    (q : Path) :
    (c.replace path found).entryOf? q =
      if path.same q then entryAfter path found (c.entryOf? q) else c.entryOf? q := by
  cases found with
  | none => exact entryOf?_remove c path q
  | some o =>
    rw [Cache.replace, h.entryOf?_insertAt]
    by_cases hq : path.same q = true
    · rw [if_pos hq, if_pos hq, c.entryOf?_congr hq]
      rfl
    · rw [if_neg hq, if_neg hq]

end Paths

/-! ## Changes -/

/-- What is taken out of a cache is what it said. -/
theorem takeOut_eq (c : Cache) (path : Path) : c.takeOut path = (c.get? path, c.remove path) := by
  rw [takeOut, List.partition_eq_filter_filter]
  simp only [List.head?_filter]
  rfl

/-- A change of a cache. -/
inductive Operation
  /-- An object under its own path. -/
  | insert (o : SourceObject)
  /-- What a path holds now. -/
  | replace (path : Path) (found : Option SourceObject)
  /-- A path without an object. -/
  | remove (path : Path)

/-- The path that a change is about. -/
def Operation.path : Operation → Path
  | .insert o => o.file
  | .replace path _ => path
  | .remove path => path

/-- The object that a change leaves at its path, if any. -/
def Operation.leaves : Operation → Option SourceObject
  | .insert o => some o
  | .replace _ found => found
  | .remove _ => none

/-- The cache after a change. -/
def apply (c : Cache) : Operation → Cache
  | .insert o => c.insert o
  | .replace path found => c.replace path found
  | .remove path => (c.takeOut path).2

/-- A cache that was empty at first, after some changes. -/
def run (ops : List Operation) : Cache := ops.foldl apply {}

theorem apply_eq_replace (c : Cache) (op : Operation) :
    c.apply op = c.replace op.path op.leaves := by
  cases op with
  | insert o => rfl
  | replace path found => rfl
  | remove path =>
    rw [apply, takeOut_eq]
    rfl

theorem get?_apply (c : Cache) (op : Operation) (q : Path) :
    (c.apply op).get? q = if op.path.same q then op.leaves else c.get? q := by
  rw [apply_eq_replace, get?_replace]

theorem run_concat (ops : List Operation) (op : Operation) :
    run (ops ++ [op]) = (run ops).apply op := by
  rw [run, run, List.foldl_append, List.foldl_cons, List.foldl_nil]

theorem ordered_run (ops : List Operation) : (run ops).Ordered := by
  induction ops using List.reverseRecOn with
  | nil => exact ordered_nil
  | append_singleton ops op ih =>
    rw [run_concat, apply_eq_replace]
    exact ih.replace op.path op.leaves

/-- A path has what the last change of it left there. -/
theorem get?_run (ops : List Operation) (q : Path) :
    (run ops).get? q = (ops.reverse.find? (·.path.same q)).bind Operation.leaves := by
  induction ops using List.reverseRecOn with
  | nil => rfl
  | append_singleton ops op ih =>
    rw [run_concat, get?_apply, List.reverse_concat, List.find?_cons]
    cases op.path.same q with
    | true => rfl
    | false => exact ih

/-- The last change of a path: one with no other after it. -/
theorem find?_reverse_eq_some_iff {ops : List Operation} {op : Operation} {q : Path} :
    ops.reverse.find? (·.path.same q) = some op ↔
      ∃ before after, ops = before ++ op :: after ∧ op.path.same q = true ∧
        ∀ later ∈ after, ¬ later.path.same q = true := by
  rw [List.find?_eq_some_iff_append]
  constructor
  · rintro ⟨hop, later, earlier, heq, hlater⟩
    refine ⟨earlier.reverse, later.reverse, ?_, hop, fun l hl => ?_⟩
    · rw [← @List.reverse_reverse _ ops, heq, List.reverse_append, List.reverse_cons,
        List.append_assoc, List.singleton_append]
    · simpa using hlater l (List.mem_reverse.1 hl)
  · rintro ⟨before, after, rfl, hop, hafter⟩
    refine ⟨hop, after.reverse, before.reverse, ?_, fun l hl => ?_⟩
    · rw [List.reverse_append, List.reverse_cons, List.append_assoc, List.singleton_append]
    · simpa using hafter l (List.mem_reverse.1 hl)

/-- **A cache is a map**, whatever was done to it. A path has the object that the last change of
it left there, no matter how the path was spelled. The paths with an object are listed once each and
in order, there are as many of them as the size says, taking an object out gives what was there, and
a change shows at its own path only. -/
theorem run_asMap (ops : List Operation) :
    (∀ q o, (run ops).get? q = some o ↔
        ∃ before op after, ops = before ++ op :: after ∧ op.path.same q = true ∧
          op.leaves = some o ∧ ∀ later ∈ after, ¬ later.path.same q = true) ∧
      ((run ops).paths.Pairwise fun p q => p.before q = true) ∧
      (∀ q, (run ops).paths.countP (·.same q) = if ((run ops).get? q).isSome then 1 else 0) ∧
      (run ops).size = (run ops).paths.length ∧
      ((run ops).isEmpty = true ↔ (run ops).size = 0) ∧
      (∀ q, ((run ops).takeOut q).1 = (run ops).get? q) ∧
      ∀ op q, ¬ op.path.same q = true → ((run ops).apply op).get? q = (run ops).get? q := by
  have hordered := ordered_run ops
  refine ⟨fun q o => ?_, hordered.paths, hordered.countP_paths, (length_paths _).symm, ?_,
    fun q => ?_, fun op q hne => ?_⟩
  · rw [get?_run, Option.bind_eq_some_iff]
    constructor
    · rintro ⟨op, hlast, hleaves⟩
      obtain ⟨before, after, heq, hop, hafter⟩ := find?_reverse_eq_some_iff.1 hlast
      exact ⟨before, op, after, heq, hop, hleaves, hafter⟩
    · rintro ⟨before, op, after, heq, hop, hleaves, hafter⟩
      exact ⟨op, find?_reverse_eq_some_iff.2 ⟨before, after, heq, hop, hafter⟩, hleaves⟩
  · rw [isEmpty, size, List.isEmpty_iff, List.length_eq_zero_iff]
  · rw [takeOut_eq]
  · rw [get?_apply, if_neg hne]

end Cache

end DocAudit
