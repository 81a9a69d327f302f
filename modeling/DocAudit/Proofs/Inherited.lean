import DocAudit.Proofs.CacheRun
import DocAudit.Proofs.Text

/-!
# Where documentation is inherited from

A procedure with a tag of inheritance takes its documentation from a procedure of an interface. The
tag may refer to that procedure by name; without a reference, the interfaces that the owner
implements are tried in order. The search for an interface stops at the first one of its name, so
that what is found depends on the order of the cache, unless no two interfaces have the same name.

* `Candidates`: the sources a procedure may inherit from, in order.
* `Cache.Qualifies`, `Cache.Gives`: a source has documentation, and which.
* `Cache.inheritedFrom?_eq_some_iff`: what the search for one source finds.
* `Cache.mem_objects_iff`: the objects of a cache in order are those its paths have.
* `Cache.inherited?_firstQualifying`: what is inherited, whatever the order of the cache.
-/

namespace DocAudit

namespace Cache

/-! ## Sources -/

/-- Where a procedure may inherit from. A reference is cut at its last point. Without a reference,
these are the interfaces that the owner implements, in order, with the procedure's own name. -/
inductive Candidates (owner : SourceObject) (p : Procedure) : InheritTag → List Source → Prop
  | reference {interface procedure : Text} (h : '.' ∉ procedure) :
    Candidates owner p ⟨some (interface ++ '.' :: procedure)⟩
      [⟨unquote interface, unquote procedure⟩]
  | pointless {reference : Text} (h : '.' ∉ reference) : Candidates owner p ⟨some reference⟩ []
  | implemented {target : Text} (h : owner.relation = some ⟨.implementing, target⟩) :
    Candidates owner p ⟨none⟩
      ((Relation.targets ⟨.implementing, target⟩).map fun interface => ⟨interface, p.name⟩)
  | unrelated (h : ∀ target, owner.relation ≠ some ⟨.implementing, target⟩) :
    Candidates owner p ⟨none⟩ []

theorem candidates_sources (owner : SourceObject) (p : Procedure) (tag : InheritTag) :
    Candidates owner p tag (sources owner p tag) := by
  have hpoint {t : Text} (h : ∀ c ∈ t, ¬ decide (c = '.') = true) : '.' ∉ t := by
    intro hmem
    exact h '.' hmem (decide_eq_true rfl)
  obtain ⟨reference⟩ := tag
  cases reference with
  | some reference =>
    cases hcut : splitLast (· = '.') reference with
    | some parts =>
      obtain ⟨interface, procedure⟩ := parts
      obtain ⟨c, rfl, hc, hafter⟩ := splitLast_eq_some hcut
      obtain rfl : c = '.' := of_decide_eq_true hc
      simp only [sources, hcut]
      exact Candidates.reference (hpoint hafter)
    | none =>
      simp only [sources, hcut]
      exact Candidates.pointless (hpoint (splitLast_eq_none_iff.1 hcut))
  | none =>
    simp only [sources]
    split
    · next target htarget => exact Candidates.implemented htarget
    · next hother => exact Candidates.unrelated hother

/-! ## Documentation of a source -/

/-- The procedure is documented and has the name, in any case. -/
def Documents (q : Procedure) (name : Text) : Prop :=
  sameWord q.name name = true ∧ q.documentation.isSome = true

/-- The source has documentation: its interface is in the cache, and a procedure of its name is
documented there. -/
def Qualifies (c : Cache) (s : Source) : Prop :=
  ∃ o ∈ c.objects, o.kind = .interface ∧ sameWord o.name s.interface = true ∧
    ∃ q ∈ o.procedures, Documents q s.procedure

/-- The source gives the documentation of the first procedure of its name that is documented. -/
def Gives (c : Cache) (s : Source) (i : Inherited) : Prop :=
  ∃ o ∈ c.objects, o.kind = .interface ∧ sameWord o.name s.interface = true ∧
    ∃ earlier q later, o.procedures = earlier ++ q :: later ∧ Documents q s.procedure ∧
      (∀ q' ∈ earlier, ¬ Documents q' s.procedure) ∧
      i = {
        documentation := Documentation.raw q.documentation
        file := o.file
        line := q.line
        object := o.name
        procedure := q.name }

/-- No two interfaces have the same name, in any case. -/
def UniqueInterfaces (c : Cache) : Prop :=
  ∀ o ∈ c.objects, ∀ o' ∈ c.objects, o.kind = .interface → o'.kind = .interface →
    sameWord o.name o'.name = true → o = o'

instance (c : Cache) : Decidable c.UniqueInterfaces :=
  inferInstanceAs (Decidable (∀ o ∈ c.objects, ∀ o' ∈ c.objects, o.kind = .interface →
    o'.kind = .interface → sameWord o.name o'.name = true → o = o'))

section

variable {c c' : Cache} {s : Source} {i : Inherited}

/-- **An interface is found by its name**, wherever it stands. -/
theorem find?_interface_eq_some_iff (h : c.UniqueInterfaces) {name : Text} {o : SourceObject} :
    c.find? name .interface = some o ↔
      o ∈ c.objects ∧ o.kind = .interface ∧ sameWord o.name name = true := by
  have hfound {o : SourceObject} (ho : c.find? name .interface = some o) :
      o ∈ c.objects ∧ o.kind = .interface ∧ sameWord o.name name = true := by
    have hsatisfies := List.find?_some ho
    rw [Bool.and_eq_true, beq_iff_eq] at hsatisfies
    exact ⟨List.mem_of_find?_eq_some ho, hsatisfies⟩
  constructor
  · exact hfound
  · intro ho
    obtain ⟨hmem, hkind, hname⟩ := ho
    have hsome : (c.find? name .interface).isSome = true := by
      rw [find?, List.find?_isSome]
      refine ⟨o, hmem, ?_⟩
      rw [hname, beq_iff_eq.2 hkind]
      rfl
    obtain ⟨o', ho'⟩ := Option.isSome_iff_exists.1 hsome
    obtain ⟨hmem', hkind', hname'⟩ := hfound ho'
    have hsame : sameWord o'.name o.name = true := by
      rw [sameWord_iff] at hname hname' ⊢
      rw [hname, hname']
    rw [ho', h o' hmem' o hmem hkind' hkind hsame]

theorem documents_iff {q : Procedure} {name : Text} :
    (sameWord q.name name && q.documentation.isSome) = true ↔ Documents q name :=
  Bool.and_eq_true_iff

theorem find?_documented_eq_some_iff {ps : List Procedure} {name : Text} {q : Procedure} :
    ps.find? (fun q => sameWord q.name name && q.documentation.isSome) = some q ↔
      ∃ earlier later, ps = earlier ++ q :: later ∧ Documents q name ∧
        ∀ q' ∈ earlier, ¬ Documents q' name := by
  simp only [List.find?_eq_some_iff_append, Bool.not_eq_true', ← Bool.not_eq_true,
    documents_iff]
  constructor
  · intro h
    obtain ⟨hq, earlier, later, hsplit, hearlier⟩ := h
    exact ⟨earlier, later, hsplit, hq, hearlier⟩
  · intro h
    obtain ⟨earlier, later, hsplit, hq, hearlier⟩ := h
    exact ⟨hq, earlier, later, hsplit, hearlier⟩

/-- **What the search for one source finds.** -/
theorem inheritedFrom?_eq_some_iff (h : c.UniqueInterfaces) :
    c.inheritedFrom? s = some i ↔ c.Gives s i := by
  simp only [inheritedFrom?, Option.bind_eq_bind, Option.bind_eq_some_iff, Option.pure_def,
    Option.some.injEq, find?_interface_eq_some_iff h, find?_documented_eq_some_iff, Gives]
  constructor
  · intro hfound
    obtain ⟨o, ⟨hmem, hkind, hname⟩, q, ⟨earlier, later, hsplit, hq, hearlier⟩, hi⟩ := hfound
    exact ⟨o, hmem, hkind, hname, earlier, q, later, hsplit, hq, hearlier, hi.symm⟩
  · intro hgives
    obtain ⟨o, hmem, hkind, hname, earlier, q, later, hsplit, hq, hearlier, hi⟩ := hgives
    exact ⟨o, ⟨hmem, hkind, hname⟩, q, ⟨earlier, later, hsplit, hq, hearlier⟩, hi.symm⟩

/-- The search for a source that does not qualify finds nothing, and no other does. -/
theorem inheritedFrom?_eq_none_iff (h : c.UniqueInterfaces) :
    c.inheritedFrom? s = none ↔ ¬ c.Qualifies s := by
  rw [← not_iff_not, Classical.not_not, ← ne_eq, Option.ne_none_iff_exists']
  simp only [inheritedFrom?_eq_some_iff h]
  constructor
  · intro hgives
    obtain ⟨i, o, hmem, hkind, hname, earlier, q, later, hsplit, hq, -⟩ := hgives
    refine ⟨o, hmem, hkind, hname, q, ?_, hq⟩
    rw [hsplit]
    exact List.mem_append_right earlier List.mem_cons_self
  · intro hqualifies
    obtain ⟨o, hmem, hkind, hname, q, hq, hdocuments⟩ := hqualifies
    have hsome : (o.procedures.find?
        fun q => sameWord q.name s.procedure && q.documentation.isSome).isSome = true := by
      rw [List.find?_isSome]
      exact ⟨q, hq, documents_iff.2 hdocuments⟩
    obtain ⟨first, hfirst⟩ := Option.isSome_iff_exists.1 hsome
    obtain ⟨earlier, later, hsplit, hdocuments', hearlier⟩ := find?_documented_eq_some_iff.1 hfirst
    exact ⟨_, o, hmem, hkind, hname, earlier, first, later, hsplit, hdocuments', hearlier, rfl⟩

/-! ## Order -/

theorem UniqueInterfaces.congr (h : c.UniqueInterfaces)
    (hobjects : ∀ o, o ∈ c'.objects ↔ o ∈ c.objects) : c'.UniqueInterfaces := by
  intro o ho o' ho'
  exact h o ((hobjects o).1 ho) o' ((hobjects o').1 ho')

/-- **Where the objects stand in a cache does not matter**, nor how often. -/
theorem inherited?_congr (h : c.UniqueInterfaces) (hobjects : ∀ o, o ∈ c'.objects ↔ o ∈ c.objects)
    (owner : SourceObject) (p : Procedure) : c'.inherited? owner p = c.inherited? owner p := by
  have hsearch : c'.inheritedFrom? = c.inheritedFrom? := by
    funext s
    apply Option.ext
    intro i
    rw [inheritedFrom?_eq_some_iff h, inheritedFrom?_eq_some_iff (h.congr hobjects)]
    simp only [Gives, hobjects]
  rw [inherited?, inherited?, hsearch]

theorem get?_of_mem (h : c.Ordered) {path : Path} {o : SourceObject}
    (hmem : (path, o) ∈ c.entries) : c.get? path = some o := by
  obtain ⟨entries⟩ := c
  induction entries with
  | nil => cases hmem
  | cons first rest ih =>
    obtain ⟨p, o'⟩ := first
    obtain ⟨hfirst, hrest⟩ := List.pairwise_cons.1 h
    rw [get?_cons]
    cases List.mem_cons.1 hmem with
    | inl heq =>
      cases heq
      rw [if_pos (Path.same_refl path)]
    | inr hmem =>
      rw [if_neg (Path.not_same_of_before (hfirst _ hmem))]
      exact ih hrest hmem

/-- **The objects of a cache in order are those its paths have.** -/
theorem mem_objects_iff (h : c.Ordered) {o : SourceObject} :
    o ∈ c.objects ↔ ∃ path, c.get? path = some o := by
  constructor
  · intro hmem
    obtain ⟨⟨path, o'⟩, hentry, rfl⟩ := List.mem_map.1 hmem
    exact ⟨path, get?_of_mem h hentry⟩
  · intro hget
    obtain ⟨path, hget⟩ := hget
    obtain ⟨entry, hentry, rfl⟩ := Option.map_eq_some_iff.1 hget
    exact List.mem_map_of_mem (List.mem_of_find?_eq_some hentry)

end

/-! ## Resolution -/

/-- **What a procedure inherits** is the documentation that the first qualifying source gives, and
nothing if no source qualifies. Neither the order of the cache nor the changes that filled it
matter. -/
theorem inherited?_firstQualifying {c : Cache} (hunique : c.UniqueInterfaces) (owner : SourceObject)
    (p : Procedure) {tag : InheritTag}
    (htag : (Documentation.tags p.documentation).inherit = some tag) :
    (∃ candidates, Candidates owner p tag candidates ∧
      (∀ i, c.inherited? owner p = some i ↔
        ∃ earlier s later, candidates = earlier ++ s :: later ∧ c.Gives s i ∧
          ∀ s' ∈ earlier, ¬ c.Qualifies s') ∧
      (c.inherited? owner p = none ↔ ∀ s ∈ candidates, ¬ c.Qualifies s)) ∧
    (∀ c' : Cache, (∀ o, o ∈ c'.objects ↔ o ∈ c.objects) →
      c'.inherited? owner p = c.inherited? owner p) ∧
    ∀ ops ops', c = run ops → (∀ path, (run ops').get? path = (run ops).get? path) →
      (run ops').inherited? owner p = (run ops).inherited? owner p := by
  refine ⟨⟨sources owner p tag, candidates_sources owner p tag, ?_, ?_⟩, ?_, ?_⟩
  · intro i
    simp only [inherited?, htag, Option.bind_eq_bind, Option.bind_some, List.findSome?_eq_some_iff,
      inheritedFrom?_eq_some_iff hunique, inheritedFrom?_eq_none_iff hunique]
  · simp only [inherited?, htag, Option.bind_eq_bind, Option.bind_some, List.findSome?_eq_none_iff,
      inheritedFrom?_eq_none_iff hunique]
  · intro c' hobjects
    exact inherited?_congr hunique hobjects owner p
  · intro ops ops' hc hget
    subst hc
    apply inherited?_congr hunique
    intro o
    rw [mem_objects_iff (ordered_run ops'), mem_objects_iff (ordered_run ops)]
    simp only [hget]

/-- A procedure without parameters. -/
def bareProcedure (name : Text) (line : Nat) (documentation : Documentation) : Procedure where
  access := .everywhere
  kind := .procedure
  name := name
  declaration := ("procedure " : Text) ++ name ++ ("()" : Text)
  line := line
  range := ⟨⟨line, 0⟩, ⟨line, 12 + name.length⟩⟩
  category := .normal
  isTry := false
  obsolete := none
  parameters := []
  returns := none
  documentation := documentation

/-- An object of a kind in a file of its name. -/
def bareObject (keyword name : Text) (relation : Option Relation) (procedures : List Procedure) :
    SourceObject where
  keyword := keyword
  number := none
  name := name
  relation := relation
  file := ⟨name ++ (".al" : Text)⟩
  line := 0
  access := .everywhere
  obsolete := none
  documentation := none
  procedures := procedures

/-- A procedure that inherits its documentation. -/
def tillPay : Procedure := bareProcedure "Pay" 3 (some "<inheritdoc/>")

/-- Its owner, which implements three interfaces. -/
def till : SourceObject :=
  bareObject "codeunit" "Till" (some ⟨.implementing, "IAudit, IRefund, IPayment"⟩) [tillPay]

/-- One of them is not in the cache, the next has the procedure without documentation, and the last
has it twice. -/
def shopOperations : List Operation := [
  .insert (bareObject "interface" "IPAYMENT" none
    [bareProcedure "Pay" 2 none, bareProcedure "PAY" 4 (some "Pays.")]),
  .insert till,
  .insert (bareObject "interface" "IRefund" none [bareProcedure "Pay" 2 none])]

/-- What the last one says. -/
def shopPays : Inherited where
  documentation := "Pays."
  file := ⟨"IPAYMENT.al"⟩
  line := 4
  object := "IPAYMENT"
  procedure := "PAY"

theorem inherited?_firstQualifying_shop :
    (run shopOperations).inherited? till tillPay = some shopPays ∧
      ∀ ops, (∀ path, (run ops).get? path = (run shopOperations).get? path) →
        (run ops).inherited? till tillPay = some shopPays := by
  have hinherited : (run shopOperations).inherited? till tillPay = some shopPays := by
    decide +kernel
  have hunique : (run shopOperations).UniqueInterfaces := by decide +kernel
  have htag : (Documentation.tags tillPay.documentation).inherit = some ⟨none⟩ := by decide +kernel
  obtain ⟨-, -, hops⟩ := inherited?_firstQualifying hunique till tillPay htag
  refine ⟨hinherited, ?_⟩
  intro ops hget
  rw [hops shopOperations ops rfl hget, hinherited]

end Cache

end DocAudit
