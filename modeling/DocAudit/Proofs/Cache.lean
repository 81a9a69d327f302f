import DocAudit.Cache

/-!
# The cache as a map

What a cache says about a path after a change: the change shows at that path and nowhere else.

* `Cache.get?_insertAt`, `Cache.get?_remove`, `Cache.get?_replace`.
-/

namespace DocAudit

theorem Path.same_comm (p q : Path) : p.same q = q.same p := by
  rw [Bool.eq_iff_iff, same_iff, same_iff, eq_comm]

theorem Path.same_congr {p q : Path} (h : p.same q = true) (r : Path) : p.same r = q.same r := by
  rw [Bool.eq_iff_iff, same_iff, same_iff, same_iff.1 h]

namespace Cache

theorem get?_congr (c : Cache) {p q : Path} (h : p.same q = true) : c.get? p = c.get? q := by
  have hsame :
      (fun entry : Path × SourceObject => entry.1.same p) = fun entry => entry.1.same q := by
    funext entry
    rw [Path.same_comm, Path.same_congr h, Path.same_comm]
  simp only [get?, hsame]

theorem get?_nil (q : Path) : (⟨[]⟩ : Cache).get? q = none := rfl

theorem get?_cons (p : Path) (o : SourceObject) (rest : List (Path × SourceObject)) (q : Path) :
    (⟨(p, o) :: rest⟩ : Cache).get? q =
      if p.same q then some o else (⟨rest⟩ : Cache).get? q := by
  rw [get?, List.find?_cons]
  cases hq : p.same q with
  | true => rfl
  | false => rfl

theorem get?_insertAt (c : Cache) (path : Path) (o : SourceObject) (q : Path) :
    (c.insertAt path o).get? q = if path.same q then some o else c.get? q := by
  obtain ⟨entries⟩ := c
  rw [insertAt]
  simp only
  induction entries with
  | nil => rw [insertEntry, get?_cons]
  | cons entry rest ih =>
    obtain ⟨p, old⟩ := entry
    rw [insertEntry]
    by_cases hp : p.same path = true
    · rw [if_pos hp, get?_cons, get?_cons, Path.same_congr hp]
      split <;> rfl
    · rw [if_neg hp]
      by_cases hb : path.before p = true
      · rw [if_pos hb, get?_cons]
      · simp only [if_neg hb, get?_cons, ih]
        by_cases hpq : p.same q = true
        · have hq : ¬ path.same q = true := fun hq =>
            hp (by rw [Path.same_congr hpq, Path.same_comm]; exact hq)
          simp only [if_pos hpq, if_neg hq]
        · simp only [if_neg hpq]

theorem get?_remove (c : Cache) (path q : Path) :
    (c.remove path).get? q = if path.same q then none else c.get? q := by
  obtain ⟨entries⟩ := c
  rw [remove]
  simp only
  induction entries with
  | nil =>
    rw [List.filter_nil, get?_nil]
    split <;> rfl
  | cons entry rest ih =>
    obtain ⟨p, old⟩ := entry
    by_cases hp : p.same path = true
    · rw [List.filter_cons_of_neg (by rw [hp]; exact Bool.false_ne_true), ih, get?_cons,
        Path.same_congr hp]
      split <;> rfl
    · rw [List.filter_cons_of_pos (by simpa using hp), get?_cons, get?_cons, ih]
      by_cases hpq : p.same q = true
      · have hq : ¬ path.same q = true := fun hq =>
          hp (by rw [Path.same_congr hpq, Path.same_comm]; exact hq)
        simp only [if_pos hpq, if_neg hq]
      · simp only [if_neg hpq]

/-- Replacing shows at the replaced path only. -/
theorem get?_replace (c : Cache) (path : Path) (found : Option SourceObject) (q : Path) :
    (c.replace path found).get? q = if path.same q then found else c.get? q := by
  cases found with
  | some o => exact get?_insertAt c path o q
  | none => exact get?_remove c path q

end Cache

end DocAudit
