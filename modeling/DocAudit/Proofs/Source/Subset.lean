import DocAudit.Proofs.Source.Signature
import DocAudit.Skeleton

/-!
# What headers are made of

A header says nothing that its line does not: readers take pieces out of a line and drop quotes,
comments and blanks, and every character of a name or type stands in the line.

* `ProcedureHeader.read?_subset`, `ObjectHeader.read?_subset`: names and types are made of the line.
* `readSignature_chars`: a signature is made of its lines and of spaces.
-/

namespace DocAudit

/-! ## Quotes and comments -/

theorem stripComment_subset (t : Text) : stripComment t ⊆ t := by
  obtain ⟨comment, h⟩ := stripCommentFrom_prefix .outside t
  intro c hc
  rw [h]
  exact List.mem_append_left _ hc

theorem codeOf_subset (t : Text) : codeOf t ⊆ t := fun _ hc =>
  stripComment_subset t (trim_subset _ hc)

theorem collapsePairs_subset (mark : Char) (t : Text) : collapsePairs mark t ⊆ t := by
  fun_induction collapsePairs mark t with
  | case1 a b rest h ih =>
    rw [h.1]
    exact List.cons_subset_cons mark (List.subset_cons_of_subset b ih)
  | case2 a b rest h ih => exact List.cons_subset_cons a ih
  | case3 t => exact List.Subset.refl t

theorem quotedBody_subset {t body : Text} (h : quotedBody t = some body) : body ⊆ t := by
  rw [quotedBody.eq_def] at h
  split at h
  · next rest =>
    split at h
    · cases h
      exact List.subset_cons_of_subset _ (List.dropLast_subset rest)
    · cases h
  · cases h

theorem unquote_subset (t : Text) : unquote t ⊆ t := by
  rw [unquote]
  cases h : quotedBody (trim t) with
  | none => exact trim_subset t
  | some body => exact fun c hc => trim_subset t (quotedBody_subset h (collapsePairs_subset _ _ hc))

/-! ## Words -/

theorem blankRun_subset {t rest : Text} (h : blankRun t = some rest) : rest ⊆ t := by
  obtain ⟨gap, -, rfl⟩ := isGap_of_blankRun h
  exact List.subset_append_right gap rest

theorem keyword?_subset {words : List Text} {t word written rest : Text}
    (h : keyword? words t = some (word, written, rest)) : rest ⊆ t := by
  obtain ⟨-, gap, -, rfl, -⟩ := exists_of_keyword? h
  exact List.subset_append_of_subset_right _ (List.subset_append_right gap rest)

theorem quotedTail_eq {t seen after : Text} (h : quotedTail t = some (seen, after)) :
    t = seen ++ after := by
  fun_induction quotedTail t generalizing seen after with
  | case1 => cases h
  | case2 rest' ih =>
    obtain ⟨⟨seen', after'⟩, hs, heq⟩ := Option.map_eq_some_iff.1 h
    cases heq
    rw [ih hs]
    rfl
  | case3 rest _ =>
    cases h
    rfl
  | case4 c rest _ ih =>
    obtain ⟨⟨seen', after'⟩, hs, heq⟩ := Option.map_eq_some_iff.1 h
    cases heq
    rw [ih hs]
    rfl

theorem name?_eq {t written after : Text} (h : name? t = some (written, after)) :
    t = written ++ after := by
  cases t with
  | nil => cases h
  | cons c rest =>
    rw [name?] at h
    by_cases hc : c = '"'
    · rw [if_pos hc] at h
      cases hq : quotedTail rest with
      | none =>
        rw [hq] at h
        cases h
      | some found =>
        rw [hq] at h
        simp only at h
        split at h
        · cases h
        · cases h
          rw [hc, quotedTail_eq hq, List.cons_append]
    · rw [if_neg hc] at h
      exact identifier?_eq h

theorem word?_subset {t word rest : Text} (h : word? t = some (word, rest)) :
    (∀ c ∈ word, isLetter c = true ∨ c.isDigit = true) ∧ rest ⊆ t := by
  cases t with
  | nil => cases h
  | cons c tail =>
    rw [word?] at h
    split at h
    · next hc =>
      cases h
      refine ⟨fun d hd => ?_, List.subset_cons_of_subset c (List.dropWhile_sublist _).subset⟩
      rcases List.mem_cons.1 hd with rfl | hd
      · exact Or.inl hc
      · have := List.all_eq_true.1 List.all_takeWhile d hd
        exact Bool.or_eq_true_iff.1 this
    · cases h

theorem number?_subset {t digits rest : Text} (h : number? t = some (digits, rest)) :
    rest ⊆ t := by
  rw [number?] at h
  split at h
  · cases h
  · cases h
    exact (List.dropWhile_sublist _).subset

/-! ## Lists -/

theorem mem_extendFirst_subset {c : Char} {t : Text} {ls : List Text} (h : ∀ l ∈ ls, l ⊆ t) :
    ∀ l ∈ extendFirst c ls, l ⊆ c :: t := by
  cases ls with
  | nil =>
    intro l hl
    rw [List.mem_singleton.1 hl]
    exact List.cons_subset_cons c (List.nil_subset t)
  | cons l' ls =>
    intro l hl
    rcases List.mem_cons.1 hl with rfl | hl
    · exact List.cons_subset_cons c (h l' List.mem_cons_self)
    · exact List.subset_cons_of_subset c (h l (List.mem_cons_of_mem l' hl))

theorem pieces_subset (separator : Char) (q : Quoting) (depth : Nat) (t : Text) :
    ∀ piece ∈ pieces separator q depth t, piece ⊆ t := by
  induction t generalizing q depth with
  | nil =>
    intro piece h
    rw [List.mem_singleton.1 h]
    exact List.Subset.refl []
  | cons c rest ih =>
    rw [pieces]
    split
    · intro piece h
      rcases List.mem_cons.1 h with rfl | h
      · exact List.nil_subset _
      · exact List.subset_cons_of_subset c (ih _ _ piece h)
    · exact mem_extendFirst_subset (ih _ _)

theorem splitTopLevel_subset {separator : Char} {t piece : Text}
    (h : piece ∈ splitTopLevel separator t) : piece ⊆ t := by
  rw [splitTopLevel] at h
  split at h
  · cases h
  · exact pieces_subset separator _ _ t piece h

/-! ## Parameters and return clauses -/

theorem afterVar?_subset {name rest : Text} (h : afterVar? name = some rest) : rest ⊆ name := by
  simp only [afterVar?, Option.bind_eq_bind, Option.bind_eq_some_iff] at h
  obtain ⟨⟨seen, after⟩, hr, rest', hb, heq⟩ := h
  split at heq
  · cases heq
  · cases heq
    rw [readFolded_eq hr]
    exact List.subset_append_of_subset_right _ (blankRun_subset hb)

theorem ParameterClause.of_subset {name dataType : Text} :
    (ParameterClause.of name dataType).name ⊆ name ∧
      (ParameterClause.of name dataType).dataType = dataType := by
  refine ⟨fun c hc => ?_, rfl⟩
  have hc := unquote_subset _ hc
  cases h : afterVar? name with
  | none =>
    rw [h] at hc
    exact hc
  | some rest =>
    rw [h] at hc
    exact afterVar?_subset h hc

theorem ParameterClause.read?_subset {piece : Text} {p : ParameterClause}
    (h : ParameterClause.read? piece = some p) : p.name ⊆ piece ∧ p.dataType ⊆ piece := by
  rw [ParameterClause.read?] at h
  cases hs : splitTopLevel ':' (trim piece) with
  | nil =>
    rw [hs] at h
    cases h
  | cons name others =>
    rw [hs] at h
    cases h
    have hname : name ⊆ trim piece := splitTopLevel_subset (by rw [hs]; exact List.mem_cons_self)
    constructor
    · intro c hc
      exact trim_subset _ (hname (trim_subset _ (of_subset.1 hc)))
    · intro c hc
      exact trim_subset _ (List.drop_subset _ _ (trim_subset _ hc))

theorem ParameterClause.readAll_subset {list : Text} {p : ParameterClause}
    (h : p ∈ ParameterClause.readAll list) : p.name ⊆ list ∧ p.dataType ⊆ list := by
  obtain ⟨piece, hp, hr⟩ := List.mem_filterMap.1 h
  have hpiece := splitTopLevel_subset hp
  exact ⟨fun c hc => hpiece ((read?_subset hr).1 hc), fun c hc => hpiece ((read?_subset hr).2 hc)⟩

theorem returnType?_subset {t dataType : Text} (h : returnType? t = some dataType) :
    dataType ⊆ t := by
  cases t with
  | nil => cases h
  | cons c rest =>
    rw [returnType?] at h
    split at h
    · cases h
      exact List.subset_cons_of_subset c (trim_subset rest)
    · cases h

theorem ReturnClause.read?_subset {clause : Text} {r : ReturnClause}
    (h : ReturnClause.read? clause = some r) :
    (∀ name, r.name = some name → name ⊆ clause) ∧ r.dataType ⊆ clause := by
  rw [ReturnClause.read?] at h
  cases hn : name? (trim clause) with
  | none =>
    rw [hn] at h
    obtain ⟨dataType, ht, rfl⟩ := Option.map_eq_some_iff.1 h
    exact ⟨nofun, fun c hc => trim_subset _ (returnType?_subset ht hc)⟩
  | some found =>
    obtain ⟨name, rest⟩ := found
    rw [hn] at h
    obtain ⟨dataType, ht, rfl⟩ := Option.map_eq_some_iff.1 h
    have heq := name?_eq hn
    refine ⟨fun name' h' c hc => trim_subset _ ?_, fun c hc => trim_subset _ ?_⟩
    · cases h'
      rw [heq]
      exact List.mem_append_left _ (unquote_subset _ hc)
    · rw [heq]
      exact List.mem_append_right _ (trimLeft_subset _ (returnType?_subset ht hc))

/-! ## Headers -/

theorem ProcedureHead.read?_subset {t rest : Text} {head : ProcedureHead}
    (h : ProcedureHead.read? t = some (head, rest)) : head.writtenName ⊆ t ∧ rest ⊆ t := by
  obtain ⟨word, written, afterKind, afterName, hk, -, hn, hrest, -⟩ :=
    ProcedureHead.read?_eq_some_iff.1 h
  have hmodifier : (readModifier (trimLeft t)).2 ⊆ t := by
    rw [readModifier]
    cases hm : keyword? modifierWords (trimLeft t) with
    | none => exact trimLeft_subset t
    | some found => exact fun c hc => trimLeft_subset t (keyword?_subset hm hc)
  have hafter : afterKind ⊆ t := fun c hc => hmodifier (keyword?_subset hk hc)
  rw [name?_eq hn] at hafter
  refine ⟨fun c hc => hafter (List.mem_append_left _ hc),
    fun c hc => hafter (List.mem_append_right _ (trimLeft_subset afterName ?_))⟩
  rw [hrest]
  exact List.mem_cons_of_mem _ hc

theorem dropSemicolon_subset (t : Text) : dropSemicolon t ⊆ t := by
  rw [dropSemicolon]
  split
  · intro c hc
    exact trim_subset t (List.dropLast_subset _ (trim_subset _ hc))
  · exact trim_subset t

theorem returnText?_subset {after clause : Text} (h : returnText? after = some clause) :
    clause ⊆ after := by
  rw [returnText?] at h
  split at h
  · cases h
    exact dropSemicolon_subset after
  · cases h

/-- **The names and types of a procedure header stand in its line.** -/
theorem ProcedureHeader.read?_subset {line : Text} {h : ProcedureHeader}
    (hh : ProcedureHeader.read? line = some h) :
    h.name ⊆ line ∧ (∀ p ∈ h.parameters, p.name ⊆ line ∧ p.dataType ⊆ line) ∧
      ∀ r, h.returns = some r → (∀ name, r.name = some name → name ⊆ line) ∧ r.dataType ⊆ line := by
  simp only [ProcedureHeader.read?, Option.bind_eq_bind, Option.bind_eq_some_iff] at hh
  obtain ⟨⟨head, rest⟩, hr, ⟨inside, after⟩, hc, heq⟩ := hh
  cases heq
  have hcode := stripComment_subset line
  obtain ⟨hname, hrest⟩ := ProcedureHead.read?_subset hr
  have hclose : rest = inside ++ ')' :: after := closeParenthesis_eq hc
  rw [hclose] at hrest
  have hinside : trim inside ⊆ line := fun c h =>
    hcode (hrest (List.mem_append_left _ (trim_subset _ h)))
  have hafter : after ⊆ line := fun c h =>
    hcode (hrest (List.mem_append_right _ (List.mem_cons_of_mem _ h)))
  refine ⟨fun c h => hcode (hname (unquote_subset _ h)), fun p hp => ?_, fun r hret => ?_⟩
  · obtain ⟨hn, ht⟩ := ParameterClause.readAll_subset hp
    exact ⟨fun c h => hinside (hn h), fun c h => hinside (ht h)⟩
  · obtain ⟨clause, hclause, hread⟩ := Option.bind_eq_some_iff.1 hret
    have hline : clause ⊆ line := fun c h => hafter (returnText?_subset hclause h)
    obtain ⟨hn, ht⟩ := ReturnClause.read?_subset hread
    exact ⟨fun name h c hc => hline (hn name h hc), fun c h => hline (ht h)⟩

theorem unquote_name?_subset {t written after : Text} (h : name? t = some (written, after)) :
    unquote written ⊆ t := by
  intro c hc
  rw [name?_eq h]
  exact List.mem_append_left _ (unquote_subset _ hc)

theorem headerBody?_subset {keyword t : Text} {h : ObjectHeader}
    (hh : headerBody? keyword t = some h) : h.keyword = keyword ∧ h.name ⊆ t := by
  rw [headerBody?] at hh
  cases hd : number? t with
  | none =>
    rw [hd] at hh
    simp only [Option.bind_eq_bind, Option.bind_eq_some_iff] at hh
    obtain ⟨⟨name, after⟩, hname, relation, -, heq⟩ := hh
    cases heq
    exact ⟨rfl, unquote_name?_subset hname⟩
  | some found =>
    obtain ⟨digits, rest⟩ := found
    rw [hd] at hh
    simp only [Option.bind_eq_bind, Option.bind_eq_some_iff] at hh
    obtain ⟨rest', hb, header, ⟨⟨name, after⟩, hname, relation, -, hnamed⟩, heq⟩ := hh
    cases hnamed
    split at heq
    · cases heq
      refine ⟨rfl, ?_⟩
      intro c hc
      exact number?_subset hd (blankRun_subset hb (unquote_name?_subset hname hc))
    · cases heq

/-- **The name of an object header stands in its line**, and its keyword is a word. -/
theorem ObjectHeader.read?_subset {line : Text} {h : ObjectHeader}
    (hh : ObjectHeader.read? line = some h) :
    h.name ⊆ line ∧ ∀ c ∈ h.keyword, isLetter c = true ∨ c.isDigit = true := by
  simp only [ObjectHeader.read?, Option.bind_eq_bind, Option.bind_eq_some_iff] at hh
  obtain ⟨⟨keyword, rest⟩, hw, rest', hb, header, hbody, heq⟩ := hh
  split at heq
  · cases heq
  · cases heq
    obtain ⟨hk, hname⟩ := headerBody?_subset hbody
    refine ⟨fun c hc => stripComment_subset line (trimLeft_subset _ ?_), ?_⟩
    · exact (word?_subset hw).2 (blankRun_subset hb (hname hc))
    · rw [hk]
      exact (word?_subset hw).1

/-! ## Signatures -/

theorem joinPiece_chars {t piece : Text} {c : Char} (h : c ∈ joinPiece t piece) :
    c ∈ t ∨ c = ' ' ∨ c ∈ piece := by
  rw [joinPiece] at h
  split at h
  · exact Or.inl h
  · rcases List.mem_append.1 h with h | h
    · exact Or.inl h
    · exact Or.inr (List.mem_cons.1 h)

theorem gatherSignature_chars {t : Text} {n : Nat} {rest : List Text} {c : Char}
    (h : c ∈ (gatherSignature t n rest).1) : c ∈ t ∨ c = ' ' ∨ ∃ line ∈ rest, c ∈ line := by
  induction rest generalizing t n with
  | nil =>
    rw [gatherSignature_nil] at h
    exact Or.inl h
  | cons line others ih =>
    by_cases hc : parametersClosed t = true
    · rw [gatherSignature_of_closed hc] at h
      exact Or.inl h
    · by_cases hl : isBlockBoundary line = true
      · rw [gatherSignature_of_boundary t n hl] at h
        exact Or.inl h
      · cases n with
        | zero =>
          rw [gatherSignature_zero] at h
          exact Or.inl h
        | succ n =>
          rw [gatherSignature_cons hc hl] at h
          rcases ih h with h | h | ⟨l, hl, h⟩
          · rcases joinPiece_chars h with h | h | h
            · exact Or.inl h
            · exact Or.inr (Or.inl h)
            · exact Or.inr (Or.inr ⟨line, List.mem_cons_self, codeOf_subset line h⟩)
          · exact Or.inr (Or.inl h)
          · exact Or.inr (Or.inr ⟨l, List.mem_cons_of_mem line hl, h⟩)

/-- A signature is made of its lines and of the spaces between them. -/
theorem readSignature_chars {ls : List Text} {c : Char} (h : c ∈ (readSignature ls).1) :
    c = ' ' ∨ ∃ line ∈ ls, c ∈ line := by
  cases ls with
  | nil => cases h
  | cons line rest =>
    rcases gatherSignature_chars h with h | h | ⟨l, hl, h⟩
    · exact Or.inr ⟨line, List.mem_cons_self, codeOf_subset line h⟩
    · exact Or.inl h
    · exact Or.inr ⟨l, List.mem_cons_of_mem _ hl, h⟩

/-- A logical line is a line, or made of some. -/
theorem SourceFile.logicalLine?_chars {f : SourceFile} {n : Nat} {t : Text} {c : Char}
    (ht : f.logicalLine? n = some t) (h : c ∈ t) : c = ' ' ∨ ∃ line ∈ f.lines, c ∈ line := by
  obtain ⟨line, hl, rfl⟩ := Option.map_eq_some_iff.1 ht
  split at h
  · rcases readSignature_chars h with h | ⟨l, hl', h⟩
    · exact Or.inl h
    · exact Or.inr ⟨l, List.mem_of_mem_drop hl', h⟩
  · exact Or.inr ⟨line, List.mem_of_getElem? hl, h⟩

end DocAudit
