import DocAudit.Proofs.Markup.Locality

/-!
# Names stand in the text

Every reader of markup takes something from the start of a text and leaves the end of it. The
name of a start tag is a piece of the text, and with it the name of an element, however far inside
the text the element stands.

* `Token.read?_spec`: a token is read from the start of a text.
* `Lexeme.standsIn_of_readAll?`: all tokens are read from the text.
* `readToken?_standsIn`, `elementsFrom?_standsIn`: one token of an element, and all of them.
* `isInfix_of_mem_elements?`: the name of an element stands in the text.
-/

namespace DocAudit.Markup

/-! ## Names of tags -/

theorem suffix_of_splitFirst {p : Char → Bool} {t before after : Text}
    (h : splitFirst p t = some (before, after)) : after <:+ t := by
  induction t generalizing before with
  | nil => cases h
  | cons c t ih =>
    rw [splitFirst] at h
    split at h
    · cases h
      exact List.suffix_cons _ _
    · obtain ⟨⟨b, a⟩, hb, he⟩ := Option.map_eq_some_iff.1 h
      cases he
      exact (ih hb).trans (List.suffix_cons c t)

/-- The name of a qualified name is a piece of what spells it. -/
theorem QualifiedName.isInfix_of_ofRun? {run : Text} {n : QualifiedName}
    (h : QualifiedName.ofRun? run = some n) : n.name <:+: run := by
  rw [ofRun?] at h
  cases hs : splitFirst (· = ':') run with
  | none =>
    rw [hs] at h
    simp only [Option.getD_none] at h
    split at h
    · cases h
      exact List.infix_rfl
    · cases h
  | some found =>
    rw [hs] at h
    simp only [Option.getD_some] at h
    split at h
    · cases h
      exact (suffix_of_splitFirst hs).isInfix
    · cases h

/-- The name of a start tag is a piece of the text; other tokens have none. -/
def Token.StandsIn (t : Text) : Token → Prop
  | .startTag name _ _ => name.name <:+: t
  | _ => True

theorem Token.StandsIn.mono {s t : Text} {token : Token} (h : token.StandsIn s) (hs : s <:+: t) :
    token.StandsIn t := by
  cases token with
  | startTag name attributes tagEnd => exact List.IsInfix.trans h hs
  | text => trivial
  | comment => trivial
  | endTag => trivial

theorem readTag?_standsIn {t rest : Text} {token : Token}
    (h : readTag? t = some (token, rest)) : token.StandsIn t := by
  unfold readTag? at h
  split at h
  · simp only [readComment?, Option.bind_eq_bind, Option.bind_eq_some_iff] at h
    obtain ⟨⟨content, r⟩, -, he⟩ := h
    split at he <;> cases he
    trivial
  · split at h
    · simp only [readLiteral?, Option.bind_eq_bind, Option.bind_eq_some_iff] at h
      obtain ⟨⟨content, r⟩, -, he⟩ := h
      split at he <;> cases he
      trivial
    · split at h
      · simp only [readEndTag?, Option.bind_eq_bind, Option.bind_eq_some_iff] at h
        obtain ⟨⟨name, afterName⟩, -, he⟩ := h
        split at he
        · split at he <;> cases he
          trivial
        · cases he
      · simp only [readStartTag?, Option.bind_eq_bind, Option.bind_eq_some_iff] at h
        obtain ⟨⟨name, afterName⟩, hn, found, -, he⟩ := h
        cases he
        obtain ⟨run, rfl, -, hrun, -⟩ := QualifiedName.exists_takes hn
        exact (QualifiedName.isInfix_of_ofRun? hrun).trans (List.prefix_append run _).isInfix

/-- **A token is read from the start of a text**, which leaves the end of it. -/
theorem Token.read?_spec {t rest : Text} {token : Token}
    (h : Token.read? t = some (token, rest)) : rest <:+ t ∧ token.StandsIn t := by
  obtain ⟨seen, rfl, hne, htag | ⟨⟨content, rfl⟩, -⟩⟩ := Token.exists_takes h
  · refine ⟨List.suffix_append seen rest, ?_⟩
    obtain ⟨tail, rfl⟩ := List.head?_eq_some_iff.1 htag.1
    rw [List.cons_append, Token.read?, if_pos rfl] at h
    exact (readTag?_standsIn h).mono (List.suffix_cons '<' _).isInfix
  · exact ⟨List.suffix_append seen rest, trivial⟩

theorem Lexeme.standsIn_of_readAll? {t : Text} {lexemes : List Lexeme}
    (h : Lexeme.readAll? t = some lexemes) : ∀ lexeme ∈ lexemes, lexeme.token.StandsIn t := by
  fun_induction Lexeme.readAll? t generalizing lexemes with
  | case1 =>
    cases h
    exact List.forall_mem_nil _
  | case2 t _ token rest hread ih =>
    obtain ⟨others, ho, he⟩ := Option.map_eq_some_iff.1 h
    cases he
    obtain ⟨hrest, hstands⟩ := Token.read?_spec hread
    exact List.forall_mem_cons.2 ⟨hstands, fun lexeme hl => (ih ho lexeme hl).mono hrest.isInfix⟩
  | case3 => cases h

/-! ## Elements -/

/-- The name of an element that is being read is a piece of the text. -/
def Unfinished.StandsIn (t : Text) (u : Option Unfinished) : Prop :=
  ∀ v, u = some v → v.element.name <:+: t

theorem Unfinished.standsIn_none (t : Text) : StandsIn t none := fun v hv => by cases hv

theorem Unfinished.standsIn_some {t : Text} {v : Unfinished} (h : v.element.name <:+: t) :
    StandsIn t (some v) := fun w hw => by
  cases hw
  exact h

/-- One token of an element: what is still being read, and what it finishes, stand in the text. -/
theorem readToken?_standsIn {t : Text} {position : Nat} {lexeme : Lexeme}
    {u next : Option Unfinished} {finished : Option Element} (hl : lexeme.token.StandsIn t)
    (hu : Unfinished.StandsIn t u)
    (h : readToken? position lexeme u = some (next, finished)) :
    Unfinished.StandsIn t next ∧ ∀ e ∈ finished.toList, e.name <:+: t := by
  have hnone : ∀ e ∈ (none : Option Element).toList, e.name <:+: t := List.forall_mem_nil _
  obtain ⟨token, width⟩ := lexeme
  cases token with
  | comment =>
    cases h
    exact ⟨hu, hnone⟩
  | text content =>
    cases u with
    | none =>
      cases h
      exact ⟨hu, hnone⟩
    | some v =>
      cases h
      exact ⟨Unfinished.standsIn_some (hu v rfl), hnone⟩
  | startTag name attributes tagEnd =>
    cases u with
    | none =>
      -- The element that starts here has the name of the tag.
      simp only [readToken?, Option.bind_eq_bind, Option.bind_eq_some_iff] at h
      obtain ⟨scope, -, h⟩ := h
      cases tagEnd with
      | opened =>
        cases h
        exact ⟨Unfinished.standsIn_some hl, hnone⟩
      | closed =>
        cases h
        exact ⟨Unfinished.standsIn_none t, List.forall_mem_singleton.2 hl⟩
    | some v =>
      simp only [readToken?, Option.bind_eq_bind, Option.bind_eq_some_iff] at h
      obtain ⟨scope, -, h⟩ := h
      cases tagEnd with
      | opened =>
        cases h
        exact ⟨Unfinished.standsIn_some (hu v rfl), hnone⟩
      | closed =>
        cases h
        exact ⟨hu, hnone⟩
  | endTag name =>
    cases u with
    | none => cases h
    | some v =>
      simp only [readToken?] at h
      split at h
      · split at h
        · cases h
          exact ⟨Unfinished.standsIn_none t, List.forall_mem_singleton.2 (hu v rfl)⟩
        · cases h
          exact ⟨Unfinished.standsIn_some (hu v rfl), hnone⟩
      · cases h

theorem elementsFrom?_standsIn {t : Text} {position : Nat} {lexemes : List Lexeme}
    {u : Option Unfinished} {elements : List Element}
    (hl : ∀ lexeme ∈ lexemes, lexeme.token.StandsIn t) (hu : Unfinished.StandsIn t u)
    (h : elementsFrom? position u lexemes = some elements) : ∀ e ∈ elements, e.name <:+: t := by
  induction lexemes generalizing position u elements with
  | nil =>
    rw [elementsFrom?] at h
    split at h
    · cases h
      exact List.forall_mem_nil _
    · cases h
  | cons lexeme lexemes ih =>
    rw [List.forall_mem_cons] at hl
    simp only [elementsFrom?, Option.bind_eq_bind, Option.bind_eq_some_iff] at h
    obtain ⟨⟨next, finished⟩, hread, others, ho, he⟩ := h
    cases he
    obtain ⟨hnext, hfinished⟩ := readToken?_standsIn hl.1 hu hread
    intro e he
    rcases List.mem_append.1 he with he | he
    · exact hfinished e he
    · exact ih hl.2 hnext ho e he

/-- **The name of an element stands in the text.** -/
theorem isInfix_of_mem_elements? {t : Text} {elements : List Element}
    (h : elements? t = some elements) {e : Element} (he : e ∈ elements) : e.name <:+: t := by
  obtain ⟨lexemes, hl, h⟩ := Option.bind_eq_some_iff.1 h
  exact elementsFrom?_standsIn (Lexeme.standsIn_of_readAll? hl) (Unfinished.standsIn_none t) h e he

end DocAudit.Markup
