import DocAudit.Proofs.Markup.Fragment

/-!
# Elements stand on their own

An element at the top of a text is a piece of the text, from the angle bracket of its start tag to
that of its end tag, and the piece is read as the element wherever it stands: what is before it
changes only the places, and what is behind it changes nothing.

The tokens of an element are read the same whatever follows them, and none of them depends on where
the element started. So a run from a start tag to its end tag can be moved, with `Closes` as what is
known of the run so far.

* `readToken?_inside`, `readToken?_outside`: one token, at any place.
* `exists_closes`: the run from inside an element to its end.
* `IsPiece`, `Pieces`: a text that is an element, and a text with elements in it.
* `pieces_of_elementsAt?`: the elements of a text are its pieces.
-/

namespace DocAudit.Markup

/-! ## Places -/

/-- The element at another place. -/
def Element.placed (start stop : Nat) (e : Element) : Element := { e with start, stop }

/-- The element that is being read at another place. -/
def Unfinished.placed (start stop : Nat) (u : Unfinished) : Unfinished :=
  { u with element := u.element.placed start stop }

@[simp] theorem Unfinished.placed_placed (u : Unfinished) (a b start stop : Nat) :
    (u.placed a b).placed start stop = u.placed start stop := rfl

/-! ## One token -/

variable {position : Nat} {lexeme : Lexeme} {next : Option Unfinished} {finished : Option Element}

/-- A token inside an element leaves the element open, or it is the end tag of the element. The
same happens at any other place. -/
theorem readToken?_inside {u : Unfinished}
    (h : readToken? position lexeme (some u) = some (next, finished)) :
    (∃ v, next = some v ∧ finished = none ∧ v.element.start = u.element.start ∧
        ∀ p a b, readToken? p lexeme (some (u.placed a b)) = some (some (v.placed a b), none)) ∨
      ((∃ name, lexeme.token = .endTag name) ∧ next = none ∧
        finished = some (u.element.placed u.element.start (position + lexeme.width)) ∧
        ∀ p a b, readToken? p lexeme (some (u.placed a b)) =
          some (none, some (u.element.placed a (p + lexeme.width)))) := by
  obtain ⟨token, width⟩ := lexeme
  cases token with
  | comment =>
    cases h
    exact Or.inl ⟨u, rfl, rfl, rfl, fun p a b => rfl⟩
  | text content =>
    cases h
    exact Or.inl ⟨_, rfl, rfl, rfl, fun p a b => rfl⟩
  | startTag name attributes tagEnd =>
    simp only [readToken?, Option.bind_eq_bind, Option.bind_eq_some_iff] at h
    obtain ⟨scope, hscope, h⟩ := h
    cases tagEnd with
    | opened =>
      cases h
      refine Or.inl ⟨_, rfl, rfl, rfl, fun p a b => ?_⟩
      have hscope' : Scope.enter? (u.placed a b).inner.scope name attributes = some scope := hscope
      simp only [readToken?, hscope', Option.bind_eq_bind, Option.bind_some]
      rfl
    | closed =>
      cases h
      refine Or.inl ⟨u, rfl, rfl, rfl, fun p a b => ?_⟩
      have hscope' : Scope.enter? (u.placed a b).inner.scope name attributes = some scope := hscope
      simp only [readToken?, hscope', Option.bind_eq_bind, Option.bind_some]
      rfl
  | endTag name =>
    obtain ⟨element, inner, outer⟩ := u
    simp only [readToken?] at h
    split at h
    · next hname =>
      cases outer with
      | nil =>
        cases h
        exact Or.inr ⟨⟨name, rfl⟩, rfl, rfl, fun p a b => if_pos hname⟩
      | cons inner' outer =>
        cases h
        exact Or.inl ⟨_, rfl, rfl, rfl, fun p a b => if_pos hname⟩
    · cases h

/-- A token outside of all elements is passed over, or it is a start tag, which opens an element or
is one. The same happens at any other place. -/
theorem readToken?_outside (h : readToken? position lexeme none = some (next, finished)) :
    (next = none ∧ finished = none) ∨
      ((∃ name attributes tagEnd, lexeme.token = .startTag name attributes tagEnd) ∧
        ((∃ e : Element, next = none ∧
            finished = some (e.placed position (position + lexeme.width)) ∧
            ∀ p, readToken? p lexeme none = some (none, some (e.placed p (p + lexeme.width)))) ∨
          ∃ u : Unfinished, next = some (u.placed position (position + lexeme.width)) ∧
            finished = none ∧ ∀ p,
              readToken? p lexeme none = some (some (u.placed p (p + lexeme.width)), none))) := by
  obtain ⟨token, width⟩ := lexeme
  cases token with
  | comment =>
    cases h
    exact Or.inl ⟨rfl, rfl⟩
  | text content =>
    cases h
    exact Or.inl ⟨rfl, rfl⟩
  | startTag name attributes tagEnd =>
    refine Or.inr ⟨⟨name, attributes, tagEnd, rfl⟩, ?_⟩
    simp only [readToken?, Option.bind_eq_bind, Option.bind_eq_some_iff] at h ⊢
    obtain ⟨scope, hscope, h⟩ := h
    cases tagEnd with
    | opened =>
      cases h
      refine Or.inr ⟨⟨⟨name.name, attributes, [], 0, 0⟩, ⟨name, scope⟩, []⟩, rfl, rfl, fun p => ?_⟩
      exact ⟨scope, hscope, rfl⟩
    | closed =>
      cases h
      refine Or.inl ⟨⟨name.name, attributes, [], 0, 0⟩, rfl, rfl, fun p => ?_⟩
      exact ⟨scope, hscope, rfl⟩
  | endTag name => cases h

/-! ## The first token of a text -/

theorem add_length_append (p : Nat) (s t : Text) :
    p + s.length + t.length = p + (s ++ t).length := by
  rw [List.length_append, Nat.add_assoc]

/-- A token as it was taken from the start of a text. -/
structure Token.Taken (token : Token) (seen rest : Text) : Prop where
  ne_nil : seen ≠ []
  again : ∀ other, other.head? = rest.head? → Token.read? (seen ++ other) = some (token, other)
  tag : (∀ content, token ≠ .text content) →
    seen.head? = some '<' ∧ seen.getLast? = some '>' ∧ Takes Token.read? seen token

theorem Token.Taken.length_lt {token : Token} {seen rest : Text} (h : token.Taken seen rest) :
    rest.length < (seen ++ rest).length := by
  rw [List.length_append]
  exact Nat.lt_add_of_pos_left (List.length_pos_iff.2 h.ne_nil)

theorem Token.exists_taken {t rest : Text} {token : Token}
    (h : Token.read? t = some (token, rest)) :
    ∃ seen, t = seen ++ rest ∧ token.Taken seen rest := by
  obtain ⟨seen, rfl, hne, htag | ⟨⟨content, rfl⟩, htakes⟩⟩ := Token.exists_takes h
  · exact ⟨seen, rfl, hne, fun other _ => htag.2.2 other, fun _ => htag⟩
  · exact ⟨seen, rfl, hne, htakes, fun hno => absurd rfl (hno content)⟩

/-- The elements of a text that is not empty: its first token is read, and then the rest. -/
theorem exists_token {t : Text} {u : Option Unfinished} {es : List Element} (hne : t ≠ [])
    (h : elementsAt? position u t = some es) :
    ∃ seen rest token next finished others, t = seen ++ rest ∧ Token.Taken token seen rest ∧
      readToken? position { token, width := seen.length } u = some (next, finished) ∧
      elementsAt? (position + seen.length) next rest = some others ∧
      es = finished.toList ++ others := by
  cases hread : Token.read? t with
  | none =>
    rw [elementsAt?_of_read?_eq_none hne hread] at h
    cases h
  | some found =>
    obtain ⟨token, rest⟩ := found
    obtain ⟨seen, rfl, htaken⟩ := Token.exists_taken hread
    have hwidth : (seen ++ rest).length - rest.length = seen.length := by
      rw [List.length_append, Nat.add_sub_cancel]
    rw [elementsAt?, Lexeme.readAll?_of_read? hread, hwidth] at h
    obtain ⟨lexemes, hl, h⟩ := Option.bind_eq_some_iff.1 h
    obtain ⟨others, ho, rfl⟩ := Option.map_eq_some_iff.1 hl
    simp only [elementsFrom?, Option.bind_eq_bind, Option.bind_eq_some_iff] at h
    obtain ⟨⟨next, finished⟩, htoken, elements, hrest, he⟩ := h
    cases he
    refine ⟨seen, rest, token, next, finished, elements, rfl, htaken, htoken, ?_, rfl⟩
    rw [elementsAt?, ho]
    exact hrest

/-! ## Runs -/

/-- After this text an element that is being read ends and is `e`, wherever the text stands. -/
def Closes (u : Unfinished) (body : Text) (e : Element) : Prop :=
  ∀ p a b rest, elementsAt? p (some (u.placed a b)) (body ++ rest) =
    (elementsAt? (p + body.length) none rest).map (e.placed a (p + body.length) :: ·)

/-- **An element that is being read ends**, and its end does not depend on what follows. -/
theorem exists_closes {t : Text} {u : Unfinished} {es : List Element}
    (h : elementsAt? position (some u) t = some es) :
    ∃ body rest e others, t = body ++ rest ∧ body.getLast? = some '>' ∧ Closes u body e ∧
      elementsAt? (position + body.length) none rest = some others ∧
      es = e.placed u.element.start (position + body.length) :: others := by
  -- The induction is on the text: each token takes something of it.
  induction hn : t.length using Nat.strong_induction_on generalizing t position u es with
  | h n ih =>
    subst hn
    by_cases hne : t = []
    · rw [hne, elementsAt?, Lexeme.readAll?] at h
      cases h
    · obtain ⟨seen, rest, token, next, finished, others, rfl, htaken, hstep, hrest, rfl⟩ :=
        exists_token hne h
      rcases readToken?_inside hstep with ⟨v, rfl, rfl, hstart, hplaced⟩ |
        ⟨⟨name, hname⟩, rfl, rfl, hplaced⟩
      · obtain ⟨body, rest, e, others, rfl, hlast, hcloses, hothers, rfl⟩ :=
          ih _ htaken.length_lt hrest rfl
        rw [add_length_append] at hothers ⊢
        refine ⟨seen ++ body, rest, e, others, (List.append_assoc _ _ _).symm, by simp [hlast],
          fun p a b other => ?_, hothers, by rw [← hstart]; rfl⟩
        have hread := htaken.again (body ++ other)
          (head?_append_eq (ne_nil_of_getLast? hlast) other rest)
        rw [List.append_assoc, elementsAt?_of_read? hread (hplaced p a b), hcloses,
          add_length_append]
        exact Option.map_id'
      · simp only at hname
        obtain ⟨-, hlast, htakes⟩ := htaken.tag (by simp [hname])
        refine ⟨seen, rest, u.element, others, rfl, hlast, fun p a b other => ?_, hrest, rfl⟩
        rw [elementsAt?_of_read? (htakes other) (hplaced p a b)]
        rfl

/-! ## Pieces -/

/-- A text that is an element, wherever it stands. -/
structure IsPiece (m : Text) (e : Element) : Prop where
  first : m.head? = some '<'
  last : m.getLast? = some '>'
  read : ∀ p rest, elementsAt? p none (m ++ rest) =
    (elementsAt? (p + m.length) none rest).map (e.placed p (p + m.length) :: ·)

/-- A text that `position` characters precede has these elements in it, in this order and apart from
each other, and each of them is a piece of the text. -/
inductive Pieces : Nat → Text → List Element → Prop
  | nil (position : Nat) (gap : Text) : Pieces position gap []
  | cons {position : Nat} {m rest : Text} {e : Element} {es : List Element} (gap : Text)
      (h : IsPiece m e) (hrest : Pieces (position + gap.length + m.length) rest es) :
      Pieces position (gap ++ (m ++ rest))
        (e.placed (position + gap.length) (position + gap.length + m.length) :: es)

theorem Pieces.append_left {t : Text} {es : List Element} (s : Text)
    (h : Pieces (position + s.length) t es) : Pieces position (s ++ t) es := by
  cases h with
  | nil => exact .nil position _
  | cons gap h hrest =>
    rw [add_length_append position s gap] at hrest ⊢
    rw [← List.append_assoc]
    exact .cons (s ++ gap) h hrest

/-- **The elements of a text are pieces of it.** -/
theorem pieces_of_elementsAt? {t : Text} {es : List Element}
    (h : elementsAt? position none t = some es) : Pieces position t es := by
  induction hn : t.length using Nat.strong_induction_on generalizing t position es with
  | h n ih =>
    subst hn
    by_cases hne : t = []
    · rw [hne, elementsAt?_nil] at h
      cases h
      exact .nil position t
    · obtain ⟨seen, rest, token, next, finished, others, rfl, htaken, hstep, hrest, rfl⟩ :=
        exists_token hne h
      have hshorter := htaken.length_lt
      rcases readToken?_outside hstep with ⟨rfl, rfl⟩ |
        ⟨⟨name, attributes, tagEnd, htoken⟩, ⟨e, rfl, rfl, hplaced⟩ | ⟨u, rfl, rfl, hplaced⟩⟩
      · exact (ih _ hshorter hrest rfl).append_left seen
      · simp only at htoken
        obtain ⟨hfirst, hlast, htakes⟩ := htaken.tag (by simp [htoken])
        have hpiece : IsPiece seen e := ⟨hfirst, hlast, fun p other => by
          rw [elementsAt?_of_read? (htakes other) (hplaced p)]
          rfl⟩
        exact .cons [] hpiece (ih _ hshorter hrest rfl)
      · simp only at htoken
        obtain ⟨hfirst, hlast, htakes⟩ := htaken.tag (by simp [htoken])
        obtain ⟨body, rest, e, others, rfl, hend, hcloses, hothers, rfl⟩ := exists_closes hrest
        have hpiece : IsPiece (seen ++ body) e := by
          refine ⟨?_, by simp [hend], fun p other => ?_⟩
          · rw [head?_append_eq htaken.ne_nil _ [], List.append_nil, hfirst]
          · rw [List.append_assoc, elementsAt?_of_read? (htakes _) (hplaced p)]
            have hbody := hcloses (p + seen.length) p (p + seen.length) other
            rw [Unfinished.placed_placed, add_length_append] at hbody
            rw [hbody]
            exact Option.map_id'
        have hrest : rest.length ≤ (body ++ rest).length := by simp
        have hpieces := ih _ (Nat.lt_of_le_of_lt hrest hshorter) hothers rfl
        rw [add_length_append] at hpieces ⊢
        rw [← List.append_assoc]
        exact .cons [] hpiece hpieces

end DocAudit.Markup
