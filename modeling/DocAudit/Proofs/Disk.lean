import DocAudit.Disk
import DocAudit.Proofs.Path

/-!
# Disks as trees

On a disk every entry stands in a directory. There a path below a directory leads to the entry of
that name, and to nothing else.

* `Disk.Tree`: the disk is a tree of plain names.
* `Disk.walk_append`, `Disk.follow_join`: following a path below a directory starts from there.
* `Tree.read_join_of_entryAt?`, `Tree.read_join_of_none`: what reading a file below a directory
  yields.
* `Tree.mem_filesBelow_iff`: the files below a directory.
-/

namespace DocAudit

namespace Disk

/-- The entries of the disk are named plainly, each once, and stand in directories. -/
structure Tree (d : Disk) : Prop where
  plain : ∀ entry ∈ d.entries, entry.1 ≠ [] ∧ Plain entry.1
  nodup : (d.entries.map (·.1)).Nodup
  above : ∀ entry ∈ d.entries, d.entryAt? entry.1.dropLast = some .directory

/-- Some names below a directory lead through a file. -/
def FileAbove (d : Disk) (directory names : Names) : Prop :=
  ∃ n < names.length, ∃ bytes, d.entryAt? (directory ++ names.take n) = some (.file bytes)

variable {d : Disk}

/-! ## Entries -/

theorem mem_of_lookup {entries : List (Names × Entry)} {names : Names} {entry : Entry}
    (h : entries.lookup names = some entry) : (names, entry) ∈ entries := by
  induction entries with
  | nil => cases h
  | cons first rest ih =>
    obtain ⟨key, value⟩ := first
    rw [List.lookup_cons] at h
    by_cases hk : names = key
    · subst hk
      rw [beq_self_eq_true] at h
      cases h
      exact List.mem_cons_self
    · rw [beq_eq_false_iff_ne.2 hk] at h
      exact List.mem_cons_of_mem _ (ih h)

theorem lookup_of_mem {entries : List (Names × Entry)} {names : Names} {entry : Entry}
    (hnodup : (entries.map (·.1)).Nodup) (h : (names, entry) ∈ entries) :
    entries.lookup names = some entry := by
  induction entries with
  | nil => cases h
  | cons first rest ih =>
    obtain ⟨key, value⟩ := first
    rw [List.map_cons, List.nodup_cons] at hnodup
    rw [List.lookup_cons]
    rcases List.mem_cons.1 h with heq | hmem
    · cases heq
      rw [beq_self_eq_true]
    · have hk : names ≠ key := by
        rintro rfl
        exact hnodup.1 (List.mem_map.2 ⟨_, hmem, rfl⟩)
      rw [beq_eq_false_iff_ne.2 hk]
      exact ih hnodup.2 hmem

theorem mem_of_entryAt? {names : Names} {entry : Entry} (hne : names ≠ [])
    (h : d.entryAt? names = some entry) : (names, entry) ∈ d.entries := by
  rw [entryAt?, if_neg hne] at h
  exact mem_of_lookup h

namespace Tree

theorem entryAt?_of_mem (ht : d.Tree) {names : Names} {entry : Entry}
    (h : (names, entry) ∈ d.entries) : d.entryAt? names = some entry := by
  rw [entryAt?, if_neg (ht.plain _ h).1]
  exact lookup_of_mem ht.nodup h

/-- Whatever an entry stands below is a directory. -/
theorem entryAt?_directory (ht : d.Tree) {directory names : Names} {entry : Entry}
    (hne : names ≠ []) (h : d.entryAt? (directory ++ names) = some entry) :
    d.entryAt? directory = some .directory := by
  induction hn : names.length using Nat.strongRecOn generalizing names entry with
  | ind n ih =>
    have hne' : directory ++ names ≠ [] := fun he => hne (List.append_eq_nil_iff.1 he).2
    have habove := ht.above _ (mem_of_entryAt? hne' h)
    simp only at habove
    rw [List.dropLast_append_of_ne_nil hne] at habove
    by_cases hdrop : names.dropLast = []
    · rw [hdrop, List.append_nil] at habove
      exact habove
    · refine ih _ ?_ hdrop habove rfl
      have hpos := List.length_pos_iff.2 hne
      rw [List.length_dropLast]
      omega

end Tree

/-! ## Walking -/

theorem walk_append (d : Disk) (here : Names) (before after : List Text) :
    d.walk here (before ++ after) = (d.walk here before).bind fun there => d.walk there after := by
  induction before generalizing here with
  | nil =>
    rw [List.nil_append, walk]
    cases he : d.entryAt? here with
    | some entry => rfl
    | none =>
      cases after with
      | nil =>
        rw [walk, he]
        rfl
      | cons part rest =>
        rw [walk, he]
        rfl
  | cons part before ih =>
    simp only [List.cons_append, walk]
    cases he : d.entryAt? here with
    | none => rfl
    | some entry =>
      cases entry with
      | file bytes => rfl
      | directory =>
        simp only
        split
        · exact ih here
        · split
          · exact ih here.dropLast
          · exact ih (here ++ [part])

theorem walk_nil {here : Names} {entry : Entry} (h : d.entryAt? here = some entry) :
    d.walk here [] = .ok here := by
  rw [walk, h]
  rfl

theorem walk_plain {here : Names} {name : Text} {names : List Text} (hp : Plain (name :: names))
    (h : d.entryAt? here = some .directory) :
    d.walk here (name :: names) = d.walk (here ++ [name]) names := by
  have hname := hp name List.mem_cons_self
  rw [walk, h]
  simp only [hname.notIdle, Bool.false_eq_true, if_false, if_neg hname.notParent]

/-- Following plain names leads nowhere but to the entry of these names. -/
theorem eq_of_walk {here there : Names} {names : List Text} (hp : Plain names)
    (h : d.walk here names = .ok there) :
    there = here ++ names ∧ ∃ entry, d.entryAt? there = some entry := by
  induction names generalizing here with
  | nil =>
    rw [walk] at h
    cases he : d.entryAt? here with
    | none =>
      rw [he] at h
      cases h
    | some entry =>
      rw [he] at h
      cases h
      exact ⟨(List.append_nil _).symm, entry, he⟩
  | cons name names ih =>
    cases he : d.entryAt? here with
    | none =>
      rw [walk, he] at h
      cases h
    | some entry =>
      cases entry with
      | file bytes =>
        rw [walk, he] at h
        cases h
      | directory =>
        rw [walk_plain hp he] at h
        obtain ⟨heq, hentry⟩ := ih hp.tail h
        rw [List.append_assoc] at heq
        exact ⟨heq, hentry⟩

theorem Tree.walk_of_entryAt? (ht : d.Tree) {here : Names} {names : List Text} {entry : Entry}
    (hp : Plain names) (h : d.entryAt? (here ++ names) = some entry) :
    d.walk here names = .ok (here ++ names) := by
  induction names generalizing here with
  | nil =>
    rw [List.append_nil] at h ⊢
    exact walk_nil h
  | cons name names ih =>
    rw [walk_plain hp (ht.entryAt?_directory (List.cons_ne_nil name names) h)]
    have hsplit : here ++ name :: names = here ++ [name] ++ names := by
      rw [List.append_assoc, List.singleton_append]
    rw [hsplit] at h ⊢
    exact ih hp.tail h

/-- Plain names lead through a file exactly when they stand below one. -/
theorem Tree.walk_eq_notDirectory_iff (ht : d.Tree) {here : Names} {names : List Text}
    (hp : Plain names) : d.walk here names = .error .notDirectory ↔ d.FileAbove here names := by
  induction names generalizing here with
  | nil =>
    refine iff_of_false (fun h => ?_) (fun ⟨n, hn, _⟩ => by cases hn)
    rw [walk] at h
    split at h <;> cases h
  | cons name names ih =>
    cases he : d.entryAt? here with
    | none =>
      refine iff_of_false (fun h => ?_) ?_
      · rw [walk, he] at h
        cases h
      · rintro ⟨n, -, bytes, hfile⟩
        cases n with
        | zero =>
          rw [List.take_zero, List.append_nil, he] at hfile
          cases hfile
        | succ n =>
          rw [ht.entryAt?_directory (by rw [List.take_succ_cons]; exact List.cons_ne_nil _ _)
            hfile] at he
          cases he
    | some entry =>
      cases entry with
      | file bytes =>
        refine iff_of_true ?_ ⟨0, Nat.succ_pos _, bytes, ?_⟩
        · rw [walk, he]
        · rw [List.take_zero, List.append_nil, he]
      | directory =>
        rw [walk_plain hp he, ih hp.tail]
        constructor
        · rintro ⟨n, hn, bytes, hfile⟩
          refine ⟨n + 1, Nat.succ_lt_succ hn, bytes, ?_⟩
          rw [List.append_assoc] at hfile
          exact hfile
        · rintro ⟨n, hn, bytes, hfile⟩
          cases n with
          | zero =>
            rw [List.take_zero, List.append_nil, he] at hfile
            cases hfile
          | succ n =>
            refine ⟨n, Nat.lt_of_succ_lt_succ hn, bytes, ?_⟩
            rw [List.append_assoc]
            exact hfile

/-! ## Paths below a directory -/

/-- The parts of a directory, followed without the empty one at their end. -/
theorem walk_of_partsOf {here there : Names} {before : List Text} {t : Text}
    (hparts : Path.PartsOf before t) (h : d.walk here (Path.segments t) = .ok there)
    (names : List Text) : d.walk here (before ++ names) = d.walk there names := by
  have hbefore : d.walk here before = .ok there := by
    rcases hparts with he | he
    · rw [← he]
      exact h
    · rw [he, walk_append] at h
      cases hw : d.walk here before with
      | error fault =>
        rw [hw] at h
        cases h
      | ok place =>
        rw [hw] at h
        have hlast : d.walk place [[]] = .ok there := h
        rw [walk] at hlast
        split at hlast
        · cases hlast
        · cases hlast
        · next hd =>
          rw [if_pos (show Path.idle [] = true from rfl), walk_nil hd] at hlast
          exact hlast
  rw [walk_append, hbefore]
  rfl

/-- **A path below a directory is followed from there.** -/
theorem follow_join {root : Path} {directory names : Names}
    (hroot : d.locate? root = some directory) (hp : Plain names) (hne : names ≠ []) :
    d.follow (root.join names.relativePath) = d.walk directory names := by
  obtain ⟨t⟩ := root
  have hjoin : Path.join ⟨t⟩ names.relativePath = ⟨Path.below t (List.intercalate ['/'] names)⟩ :=
    Path.join_of_relative ⟨t⟩ (Path.isAbsolute_intercalate hp)
  have hsegments := Path.segments_intercalate hp hne
  have hfollow : d.follow ⟨t⟩ = .ok directory := by
    rw [locate?] at hroot
    cases hf : d.follow ⟨t⟩ with
    | error fault =>
      rw [hf] at hroot
      cases hroot
    | ok place =>
      rw [hf] at hroot
      cases hroot
      rfl
  rw [hjoin]
  cases t with
  | nil => cases hfollow
  | cons c rest =>
    have hhead := Path.head?_below (List.cons_ne_nil c rest) (List.intercalate ['/'] names)
    have hnil : Path.below (c :: rest) (List.intercalate ['/'] names) ≠ [] := by
      intro he
      rw [he] at hhead
      cases hhead
    rw [follow, if_neg (List.cons_ne_nil c rest)] at hfollow
    rw [follow, if_neg hnil]
    by_cases hc : c = '/'
    · subst hc
      rw [if_pos (by rfl)] at hfollow
      rw [Path.below_slash, if_pos (by rfl)]
      obtain ⟨before, hparts, hbelow⟩ :=
        Path.segments_below rest (List.intercalate ['/'] names)
      rw [hsegments] at hbelow
      rw [List.drop_succ_cons, List.drop_zero, hbelow]
      exact walk_of_partsOf hparts hfollow names
    · have habsolute : ∀ u : Text, u.head? = some c → Path.isAbsolute ⟨u⟩ = false := by
        intro u hu
        rw [Path.isAbsolute, hu]
        apply decide_eq_false
        intro he
        exact hc (Option.some.inj he)
      rw [if_neg (by rw [habsolute _ rfl]; exact Bool.false_ne_true)] at hfollow
      rw [if_neg (by rw [habsolute _ hhead]; exact Bool.false_ne_true)]
      obtain ⟨before, hparts, hbelow⟩ :=
        Path.segments_below (c :: rest) (List.intercalate ['/'] names)
      rw [hsegments] at hbelow
      rw [hbelow]
      exact walk_of_partsOf hparts hfollow names

section Below

variable {root : Path} {directory names : Names}

theorem Tree.read_join_of_entryAt? (ht : d.Tree) (hroot : d.locate? root = some directory)
    (hp : Plain names) (hne : names ≠ []) {entry : Entry}
    (h : d.entryAt? (directory ++ names) = some entry) :
    d.read (root.join names.relativePath) = contentOf entry := by
  rw [read, follow_join hroot hp hne, ht.walk_of_entryAt? hp h]
  simp only [h, Option.elim_some]

/-- Reading a path that leads to no entry fails, in one way below a file and in another
elsewhere. -/
theorem Tree.read_join_of_none (ht : d.Tree) (hroot : d.locate? root = some directory)
    (hp : Plain names) (hne : names ≠ []) (h : d.entryAt? (directory ++ names) = none) :
    (d.FileAbove directory names ∧
        d.read (root.join names.relativePath) = .unreadable .notDirectory) ∨
      (¬ d.FileAbove directory names ∧ d.read (root.join names.relativePath) = .missing) := by
  rw [← ht.walk_eq_notDirectory_iff hp, read, follow_join hroot hp hne]
  cases hw : d.walk directory names with
  | ok there =>
    obtain ⟨rfl, entry, he⟩ := eq_of_walk hp hw
    rw [h] at he
    cases he
  | error fault =>
    cases fault with
    | missing => exact Or.inr ⟨nofun, rfl⟩
    | notDirectory => exact Or.inl ⟨rfl, rfl⟩

/-! ## Files below a directory -/

theorem isPrefixOf?_eq_some_iff {start whole after : Names} :
    start.isPrefixOf? whole = some after ↔ whole = start ++ after := by
  induction start generalizing whole with
  | nil =>
    rw [List.nil_append]
    exact ⟨fun h => Option.some.inj h, fun h => congrArg some h⟩
  | cons a start ih =>
    cases whole with
    | nil => exact iff_of_false nofun nofun
    | cons b whole =>
      show (if a == b then start.isPrefixOf? whole else none) = some after ↔ _
      by_cases hab : a = b
      · subst hab
        rw [if_pos (beq_self_eq_true a), ih, List.cons_append, List.cons.injEq, and_iff_right rfl]
      · rw [if_neg (mt beq_iff_eq.1 hab), List.cons_append, List.cons.injEq]
        exact iff_of_false nofun (fun h => hab h.1.symm)

theorem Tree.mem_filesBelow_iff (ht : d.Tree) (hne : names ≠ []) :
    names ∈ d.filesBelow directory ↔
      ∃ bytes, d.entryAt? (directory ++ names) = some (.file bytes) := by
  rw [filesBelow, List.mem_filterMap]
  constructor
  · rintro ⟨⟨key, entry⟩, hmem, hbelow⟩
    cases entry with
    | directory => cases hbelow
    | file bytes =>
      have hkey : key = directory ++ names := isPrefixOf?_eq_some_iff.1 hbelow
      subst hkey
      exact ⟨bytes, ht.entryAt?_of_mem hmem⟩
  · rintro ⟨bytes, h⟩
    have hne' : directory ++ names ≠ [] := fun he => hne (List.append_eq_nil_iff.1 he).2
    exact ⟨_, mem_of_entryAt? hne' h, isPrefixOf?_eq_some_iff.2 rfl⟩

theorem Tree.plain_of_mem_filesBelow (ht : d.Tree) (h : names ∈ d.filesBelow directory) :
    Plain names := by
  rw [filesBelow, List.mem_filterMap] at h
  obtain ⟨⟨key, entry⟩, hmem, hbelow⟩ := h
  cases entry with
  | directory => cases hbelow
  | file bytes =>
    have hkey : key = directory ++ names := isPrefixOf?_eq_some_iff.1 hbelow
    subst hkey
    intro name hn
    exact (ht.plain _ hmem).2 name (List.mem_append_right _ hn)

end Below

/-! ## Comparing -/

theorem beq_bytes_iff {a b : ByteArray} : (a == b) = true ↔ a = b := by
  obtain ⟨x⟩ := a
  obtain ⟨y⟩ := b
  rw [ByteArray.mk.injEq]
  exact (beq_iff_eq : (x == y) = true ↔ x = y)

theorem sameContent_iff {a b : Option Entry} :
    sameContent a b = true ↔ ∀ bytes, a = some (.file bytes) ↔ b = some (.file bytes) := by
  unfold sameContent
  split
  · next x y =>
    rw [beq_bytes_iff]
    constructor
    · rintro rfl bytes
      exact Iff.rfl
    · intro h
      have hy := (h x).1 rfl
      cases hy
      rfl
  · next b x hno => exact iff_of_false nofun fun h => hno x ((h x).1 rfl)
  · next a y hno => exact iff_of_false nofun fun h => hno y ((h y).2 rfl)
  · next ha hb _ =>
    apply iff_of_true rfl
    intro bytes
    exact iff_of_false (fun h => ha bytes h) (fun h => hb bytes h)

end Disk

end DocAudit
