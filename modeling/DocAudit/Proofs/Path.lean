import DocAudit.Path

/-!
# Paths of plain names

A path below a directory is written by putting slashes between plain names. It is read back as
those names, wherever the directory is.

* `splitAll_intercalate`: texts with separators between them are read back.
* `Plain`: names that stand for themselves in a path.
* `Path.components_intercalate`: the components of such a path are its names.
* `Path.segments_below`: the parts of a joined path are those of the directory and then the names.
* `Path.relativeTo?_join`: joining a path to a directory and cutting the directory off again.
-/

namespace DocAudit

/-! ## Cutting at a character -/

theorem splitAll_ne_nil (p : Char → Bool) (t : Text) : splitAll p t ≠ [] := by
  cases t with
  | nil => exact List.cons_ne_nil _ _
  | cons c rest =>
    rw [splitAll]
    split
    · exact List.cons_ne_nil _ _
    · cases splitAll p rest with
      | nil => exact List.cons_ne_nil _ _
      | cons t ts => exact List.cons_ne_nil _ _

theorem extendFirst_append {ls : List Text} (h : ls ≠ []) (c : Char) (ms : List Text) :
    extendFirst c (ls ++ ms) = extendFirst c ls ++ ms := by
  cases ls with
  | nil => exact absurd rfl h
  | cons t ts => rfl

theorem splitAll_append {p : Char → Bool} {c : Char} (hc : p c = true) (s t : Text) :
    splitAll p (s ++ c :: t) = splitAll p s ++ splitAll p t := by
  induction s with
  | nil =>
    show splitAll p (c :: t) = [] :: splitAll p t
    rw [splitAll, if_pos hc]
  | cons d s ih =>
    simp only [List.cons_append, splitAll, ih]
    by_cases hd : p d = true
    · simp only [if_pos hd, List.cons_append]
    · simp only [if_neg hd, extendFirst_append (splitAll_ne_nil p s)]

theorem splitAll_eq_singleton {p : Char → Bool} {t : Text} (h : ∀ c ∈ t, ¬ p c = true) :
    splitAll p t = [t] := by
  induction t with
  | nil => rfl
  | cons c rest ih =>
    rw [splitAll, if_neg (h c List.mem_cons_self),
      ih fun d hd => h d (List.mem_cons_of_mem c hd)]
    rfl

/-- **Texts with separators between them** are read back, if there are any and none has one. -/
theorem splitAll_intercalate {c : Char} {ts : List Text} (hne : ts ≠ [])
    (h : ∀ t ∈ ts, c ∉ t) : splitAll (· = c) (List.intercalate [c] ts) = ts := by
  induction ts with
  | nil => exact absurd rfl hne
  | cons a rest ih =>
    have ha : splitAll (· = c) a = [a] := splitAll_eq_singleton fun d hd hc =>
      h a List.mem_cons_self (of_decide_eq_true hc ▸ hd)
    cases rest with
    | nil =>
      rw [List.intercalate_singleton]
      exact ha
    | cons b rest =>
      rw [List.intercalate_cons_cons, List.append_assoc, List.singleton_append,
        splitAll_append (decide_eq_true rfl), ha,
        ih (List.cons_ne_nil b rest) fun t ht => h t (List.mem_cons_of_mem a ht),
        List.singleton_append]

/-! ## Plain names -/

/-- A name that stands for itself in a path. -/
structure PlainName (name : Text) : Prop where
  noSlash : ∀ c ∈ name, c ≠ '/'
  notIdle : Path.idle name = false
  notParent : name ≠ ['.', '.']

instance (name : Text) : Decidable (PlainName name) :=
  decidable_of_iff ((∀ c ∈ name, c ≠ '/') ∧ Path.idle name = false ∧ name ≠ ['.', '.'])
    ⟨fun ⟨h1, h2, h3⟩ => ⟨h1, h2, h3⟩, fun ⟨h1, h2, h3⟩ => ⟨h1, h2, h3⟩⟩

/-- Names that stand for themselves in a path. -/
def Plain (names : List Text) : Prop := ∀ name ∈ names, PlainName name

instance (names : List Text) : Decidable (Plain names) :=
  inferInstanceAs (Decidable (∀ name ∈ names, PlainName name))

theorem Plain.tail {name : Text} {names : List Text} (h : Plain (name :: names)) :
    Plain names := fun n hn => h n (List.mem_cons_of_mem name hn)

namespace Path

variable {names : List Text}

theorem segments_intercalate (h : Plain names) (hne : names ≠ []) :
    segments (List.intercalate ['/'] names) = names :=
  splitAll_intercalate hne fun name hn hc => (h name hn).noSlash _ hc rfl

theorem filterMap_componentOf? (h : Plain names) :
    names.filterMap componentOf? = names.map .name := by
  induction names with
  | nil => rfl
  | cons a rest ih =>
    have ha := h a List.mem_cons_self
    have hc : componentOf? a = some (.name a) := by
      rw [componentOf?, ha.notIdle, if_neg Bool.false_ne_true, if_neg ha.notParent]
    rw [List.filterMap_cons_some hc, List.map_cons, ih h.tail]

theorem segments_cons {c : Char} (hc : c ≠ '/') (rest : Text) :
    segments (c :: rest) = extendFirst c (segments rest) := by
  rw [segments, splitAll, if_neg (by simpa using hc)]
  rfl

theorem head?_segments_eq_nil_iff (t : Text) :
    (segments t).head? = some [] ↔ t = [] ∨ t.head? = some '/' := by
  cases t with
  | nil => exact iff_of_true rfl (Or.inl rfl)
  | cons c rest =>
    by_cases hc : c = '/'
    · subst hc
      exact iff_of_true rfl (Or.inr rfl)
    · rw [segments_cons hc]
      refine iff_of_false ?_ ?_
      · cases segments rest with
        | nil => exact fun he => by cases he
        | cons t ts => exact fun he => by cases he
      · rintro (he | he)
        · cases he
        · cases he
          exact hc rfl

/-- A text is read as a path without a start when its first part counts, and only then. -/
theorem open?_eq_none_iff {c : Char} {rest : Text} :
    open? ⟨c :: rest⟩ = (.none, c :: rest) ↔ (segments (c :: rest)).head?.any idle = false := by
  rw [open?]
  by_cases hc : c = '/'
  · subst hc
    exact iff_of_false (fun he => by cases he) (fun he => by cases he)
  · simp only [if_neg hc]
    rw [segments_cons hc]
    have hhead := head?_segments_eq_nil_iff rest
    have hne := splitAll_ne_nil (· = '/') rest
    rw [← segments] at hne
    by_cases hd : c = '.' ∧ (rest = [] ∨ rest.head? = some '/')
    · rw [if_pos hd]
      refine iff_of_false (fun he => by cases he) (fun he => ?_)
      cases hs : segments rest with
      | nil => exact hne hs
      | cons t ts =>
        rw [hs] at he hhead
        have ht : t = [] := Option.some.inj (hhead.2 hd.2)
        subst ht
        rw [hd.1] at he
        cases he
    · rw [if_neg hd]
      refine iff_of_true rfl ?_
      cases hs : segments rest with
      | nil => exact absurd hs hne
      | cons t ts =>
        rw [hs] at hhead
        show idle (c :: t) = false
        rw [idle, Bool.or_eq_false_iff]
        refine ⟨rfl, decide_eq_false fun he => hd ?_⟩
        cases he
        exact ⟨rfl, hhead.1 rfl⟩

theorem open?_intercalate (h : Plain names) :
    open? ⟨List.intercalate ['/'] names⟩ = (.none, List.intercalate ['/'] names) := by
  cases names with
  | nil => rfl
  | cons a rest =>
    cases ht : List.intercalate ['/'] (a :: rest) with
    | nil => rfl
    | cons c tail =>
      refine open?_eq_none_iff.2 ?_
      rw [← ht, segments_intercalate h (List.cons_ne_nil a rest)]
      exact (h a List.mem_cons_self).notIdle

theorem components_intercalate (h : Plain names) :
    components ⟨List.intercalate ['/'] names⟩ = names.map .name := by
  rw [components, open?_intercalate h]
  cases names with
  | nil => rfl
  | cons a rest =>
    rw [segments_intercalate h (List.cons_ne_nil a rest), filterMap_componentOf? h]
    rfl

/-! ## Joining -/

/-- A text read from a directory: what `join` makes of a relative path. -/
def below (directory t : Text) : Text :=
  if directory = [] ∨ directory.getLast? = some '/' then directory ++ t else directory ++ '/' :: t

theorem join_of_relative (p : Path) {q : Path} (h : q.isAbsolute = false) :
    p.join q = ⟨below p.text q.text⟩ := by
  rw [join, if_neg (by rw [h]; exact Bool.false_ne_true), below]
  split <;> rfl

/-- `before` are the parts of a directory, possibly without an empty one at the end. -/
def PartsOf (before : List Text) (directory : Text) : Prop :=
  segments directory = before ∨ segments directory = before ++ [[]]

/-- **The parts of a text read from a directory** are those of the directory and then its own. -/
theorem segments_below (directory t : Text) :
    ∃ before, PartsOf before directory ∧ segments (below directory t) = before ++ segments t := by
  rw [below]
  by_cases hnil : directory = []
  · rw [if_pos (Or.inl hnil), hnil]
    exact ⟨[], Or.inr rfl, rfl⟩
  · by_cases hlast : directory.getLast? = some '/'
    · rw [if_pos (Or.inr hlast)]
      obtain ⟨start, rfl⟩ := List.getLast?_eq_some_iff.1 hlast
      refine ⟨segments start, Or.inr ?_, ?_⟩
      · rw [segments, splitAll_append (by decide)]
        rfl
      · rw [List.append_assoc, List.singleton_append, segments, splitAll_append (by decide)]
        rfl
    · rw [if_neg (not_or_intro hnil hlast)]
      refine ⟨segments directory, Or.inl rfl, ?_⟩
      rw [segments, splitAll_append (by decide)]
      rfl

theorem below_cons {c : Char} {rest : Text} (h : rest ≠ []) (t : Text) :
    below (c :: rest) t = c :: below rest t := by
  simp only [below, List.getLast?_cons_of_ne_nil h]
  by_cases hlast : rest.getLast? = some '/'
  · simp only [if_pos (Or.inr hlast), List.cons_append]
  · rw [if_neg (not_or_intro (List.cons_ne_nil c rest) hlast), if_neg (not_or_intro h hlast),
      List.cons_append]

theorem below_slash (rest t : Text) : below ('/' :: rest) t = '/' :: below rest t := by
  cases rest with
  | nil => rfl
  | cons d rest => exact below_cons (List.cons_ne_nil d rest) t

theorem head?_below {directory : Text} (h : directory ≠ []) (t : Text) :
    (below directory t).head? = directory.head? := by
  cases directory with
  | nil => exact absurd rfl h
  | cons c rest =>
    rw [below]
    split <;> rfl

/-- A text read from a directory starts as the directory does. -/
theorem open?_below {directory : Text} (h : directory ≠ []) (t : Text) :
    (open? ⟨below directory t⟩).1 = (open? ⟨directory⟩).1 ∧
      ∃ before, PartsOf before (open? ⟨directory⟩).2 ∧
        segments (open? ⟨below directory t⟩).2 = before ++ segments t := by
  cases directory with
  | nil => exact absurd rfl h
  | cons c rest =>
    by_cases hc : c = '/'
    · subst hc
      rw [below_slash]
      exact ⟨rfl, segments_below rest t⟩
    · by_cases hd : c = '.' ∧ (rest = [] ∨ rest.head? = some '/')
      · obtain ⟨rfl, hrest⟩ := hd
        cases rest with
        | nil => exact ⟨rfl, [[]], Or.inl rfl, rfl⟩
        | cons d rest =>
          have hopen : open? ⟨'.' :: d :: rest⟩ = (.current, d :: rest) := by
            rw [open?]
            simp only [if_neg hc, true_and]
            rw [if_pos hrest]
          have hopen' : open? ⟨below ('.' :: d :: rest) t⟩ = (.current, below (d :: rest) t) := by
            rw [below_cons (List.cons_ne_nil d rest), open?]
            simp only [if_neg hc, true_and]
            rw [if_pos]
            rw [head?_below (List.cons_ne_nil d rest)]
            refine Or.inr ?_
            rcases hrest with he | he
            · cases he
            · exact he
          rw [hopen, hopen']
          exact ⟨rfl, segments_below (d :: rest) t⟩
      · have hopen : open? ⟨c :: rest⟩ = (.none, c :: rest) := by
          rw [open?]
          simp only [if_neg hc]
          rw [if_neg hd]
        have hhead := open?_eq_none_iff.1 hopen
        obtain ⟨before, hparts, hsegments⟩ := segments_below (c :: rest) t
        -- The first part of the directory is one that counts, and stays the first.
        have hopen' : open? ⟨below (c :: rest) t⟩ = (.none, below (c :: rest) t) := by
          cases hb : below (c :: rest) t with
          | nil =>
            have := head?_below h t
            rw [hb] at this
            cases this
          | cons c' rest' =>
            refine open?_eq_none_iff.2 ?_
            rw [← hb, hsegments]
            cases before with
            | nil =>
              rcases hparts with he | he <;> rw [he] at hhead
              · exact absurd he (splitAll_ne_nil _ _)
              · cases hhead
            | cons b bs => rcases hparts with he | he <;> rw [he] at hhead <;> exact hhead
        rw [hopen, hopen']
        exact ⟨rfl, before, hparts, hsegments⟩

/-! ## Cutting the directory off -/

theorem PartsOf.filterMap_componentOf? {before : List Text} {directory : Text}
    (h : PartsOf before directory) :
    (segments directory).filterMap componentOf? = before.filterMap componentOf? := by
  rcases h with h | h
  · rw [h]
  · rw [h, List.filterMap_append]
    exact List.append_nil _

/-- As many parts dropped as count before some plain names leave the names. -/
theorem dropWhile_dropCounting (before names : List Text) :
    (dropCounting (before.filterMap componentOf?).length (before ++ names)).dropWhile idle =
      names.dropWhile idle := by
  induction before with
  | nil =>
    rw [List.filterMap_nil, List.length_nil, dropCounting, List.nil_append]
  | cons part before ih =>
    by_cases hp : idle part = true
    · have hc : componentOf? part = none := by
        rw [componentOf?, if_pos hp]
      rw [List.filterMap_cons_none hc, List.cons_append]
      cases hn : (before.filterMap componentOf?).length with
      | zero =>
        rw [hn, dropCounting] at ih
        rw [dropCounting, List.dropWhile_cons_of_pos hp]
        exact ih
      | succ n =>
        rw [hn] at ih
        rw [dropCounting, if_pos hp]
        exact ih
    · have hc : ∃ component, componentOf? part = some component := by
        rw [componentOf?, if_neg hp]
        split
        · exact ⟨_, rfl⟩
        · exact ⟨_, rfl⟩
      obtain ⟨component, hc⟩ := hc
      rw [List.filterMap_cons_some hc, List.length_cons, List.cons_append, dropCounting,
        if_neg hp]
      exact ih

theorem dropWhile_idle (h : Plain names) : names.dropWhile idle = names := by
  cases names with
  | nil => rfl
  | cons a rest =>
    rw [List.dropWhile_cons_of_neg]
    rw [(h a List.mem_cons_self).notIdle]
    exact Bool.false_ne_true

theorem joinSegments_reverse (h : Plain names) :
    joinSegments names.reverse = List.intercalate ['/'] names := by
  rw [joinSegments, dropWhile_idle, List.reverse_reverse]
  intro name hn
  exact h name (List.mem_reverse.1 hn)

theorem isAbsolute_intercalate (h : Plain names) :
    isAbsolute ⟨List.intercalate ['/'] names⟩ = false := by
  cases ht : List.intercalate ['/'] names with
  | nil => rfl
  | cons c tail =>
    have hopen := open?_intercalate h
    rw [ht] at hopen
    apply decide_eq_false
    intro he
    cases he
    cases hopen

theorem componentOf?_ne {part : Text} {component : Component}
    (h : componentOf? part = some component) : component ≠ .root ∧ component ≠ .current := by
  rw [componentOf?] at h
  split at h
  · cases h
  · split at h <;> cases h <;> exact ⟨nofun, nofun⟩

/-- How many components of a path stand for parts after its start. -/
theorem components_cases {t : Text} (ht : t ≠ []) :
    ∃ first rest, components ⟨t⟩ = first :: rest ∧
      (components ⟨t⟩).length - (if first = .root ∨ first = .current then 1 else 0) =
        ((segments (open? ⟨t⟩).2).filterMap componentOf?).length := by
  rw [components]
  cases hs : (open? ⟨t⟩).1 with
  | root => exact ⟨.root, _, rfl, rfl⟩
  | current => exact ⟨.current, _, rfl, rfl⟩
  | none =>
    rw [show Start.none.component?.toList = ([] : List Component) from rfl, List.nil_append]
    cases hc : (segments (open? ⟨t⟩).2).filterMap componentOf? with
    | nil =>
      -- The first part of a path without a start counts.
      cases t with
      | nil => exact absurd rfl ht
      | cons c rest =>
        have hopen : open? ⟨c :: rest⟩ = (.none, c :: rest) := by
          rw [open?] at hs ⊢
          by_cases h1 : c = '/'
          · simp only [if_pos h1] at hs
            cases hs
          · simp only [if_neg h1] at hs ⊢
            split at hs
            · cases hs
            · next h2 => rw [if_neg h2]
        have hhead := open?_eq_none_iff.1 hopen
        rw [hopen] at hc
        cases hp : segments (c :: rest) with
        | nil => exact absurd hp (splitAll_ne_nil _ _)
        | cons part parts =>
          rw [hp] at hhead hc
          have hidle := List.filterMap_eq_nil_iff.1 hc part List.mem_cons_self
          rw [componentOf?, if_neg (by rw [show idle part = false from hhead]; decide)] at hidle
          split at hidle <;> cases hidle
    | cons first rest =>
      refine ⟨first, rest, rfl, ?_⟩
      obtain ⟨part, -, hpart⟩ := List.mem_filterMap.1 (hc ▸ List.mem_cons_self : first ∈ _)
      have hne := componentOf?_ne hpart
      rw [if_neg (not_or_intro hne.1 hne.2), Nat.sub_zero]

/-- **Joining plain names to a directory and cutting it off again** gives the names back. -/
theorem relativeTo?_join (directory : Path) (h : Plain names) (hne : names ≠ []) :
    directory.relativeTo? (directory.join ⟨List.intercalate ['/'] names⟩) =
      some ⟨List.intercalate ['/'] names⟩ := by
  obtain ⟨t⟩ := directory
  rw [join_of_relative _ (isAbsolute_intercalate h)]
  have hsegments := segments_intercalate h hne
  by_cases ht : t = []
  · subst ht
    have hbelow : below [] (List.intercalate ['/'] names) = List.intercalate ['/'] names := rfl
    simp only [hbelow, relativeTo?, open?_intercalate h]
    show some (⟨[] ++ joinSegments (segments (List.intercalate ['/'] names)).reverse⟩ : Path) = _
    rw [hsegments, joinSegments_reverse h, List.nil_append]
  · obtain ⟨hstart, before, hparts, hbelow⟩ := open?_below ht (List.intercalate ['/'] names)
    rw [hsegments] at hbelow
    have hcomponents : components ⟨below t (List.intercalate ['/'] names)⟩ =
        components ⟨t⟩ ++ names.map .name := by
      rw [components, components, hstart, hbelow, hparts.filterMap_componentOf?,
        List.filterMap_append, filterMap_componentOf? h, List.append_assoc]
    obtain ⟨first, rest, hfirst, hcount⟩ := components_cases ht
    rw [hparts.filterMap_componentOf?] at hcount
    rw [relativeTo?]
    simp only [hcomponents]
    rw [hfirst] at hcount ⊢
    simp only
    rw [if_pos (List.isPrefixOf_iff_prefix.2 (List.prefix_append _ _)), hcount, hbelow,
      dropWhile_dropCounting, dropWhile_idle h, joinSegments_reverse h]

end Path

end DocAudit
