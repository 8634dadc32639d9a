/-
# Where a text is refused

Every error about a text has the span of characters of it. The errors of the tokens have that of the
characters that are no token; those of the reader have that of one of the tokens, the current one or
one that was passed before (`SyntaxError.About`). About the end of the input, which has no
characters, the reader has only one thing to say: that something else has to stand there.

What a step of the reader keeps is said once for its value, its tokens and its errors (`Upholds`);
the readers of the grammar follow by induction on the fuel, since each is made of smaller ones.

Key definitions: `SyntaxError.About`, `Notation.Upholds`.
Key theorems: `Notation.Upholds.bind`, `Notation.Reader.upholds_readers`,
`Notation.located_in_text`.
-/
import TypeResolution.Proofs.Notation.Lexemes
import TypeResolution.Notation.Reader

namespace TypeResolution

/-- The error is about this token, and about the end of the input only that it must not stand
there. -/
def SyntaxError.About (e : SyntaxError) (l : Notation.Lexeme) : Prop :=
  e.span = l.span ∧ (l.token = .endOfInput →
    ∃ expected, e = .unexpectedToken expected Notation.Token.endOfInput.describe l.span)

namespace Notation

variable {α β : Type} {x : Read α} {f : α → Read β} {P Q : α → Prop} {lexemes : List Lexeme}

/-- Some of the tokens are left. -/
def Within (lexemes : List Lexeme) (r : Reader) : Prop :=
  r.unread ≠ [] ∧ ∀ l ∈ r.unread, l ∈ lexemes

/-- The span of a token that is not the end of the input. -/
def WordSpan (lexemes : List Lexeme) (span : Span) : Prop :=
  ∃ l ∈ lexemes, l.token ≠ .endOfInput ∧ span = l.span

/-- From a reader within the tokens, the step leaves one within them, with such a value, or an error
about one of them. -/
def Upholds (lexemes : List Lexeme) (x : Read α) (Q : α → Prop) : Prop :=
  ∀ r, Within lexemes r → match x.run.run r with
    | (.ok a, r') => Within lexemes r' ∧ Q a
    | (.error e, _) => ∃ l ∈ lexemes, e.About l

theorem upholds_pure {a : α} (ha : Q a) : Upholds lexemes (pure a) Q := fun _ hr => ⟨hr, ha⟩

theorem upholds_throw {e : SyntaxError} (he : ∃ l ∈ lexemes, e.About l) :
    Upholds lexemes (throw e : Read α) Q := fun _ _ => he

theorem Upholds.bind {R : β → Prop} (hx : Upholds lexemes x P)
    (hf : ∀ a, P a → Upholds lexemes (f a) R) : Upholds lexemes (x >>= f) R := by
  intro r hr
  have hfirst := hx r hr
  rw [ExceptT.run_bind, StateT.run_bind]
  rcases hrun : x.run.run r with ⟨e | a, r'⟩
  · rw [hrun] at hfirst
    exact hfirst
  · rw [hrun] at hfirst
    exact hf a hfirst.2 r' hfirst.1

/-- What is known of the value need not be used. -/
theorem Upholds.then {R : β → Prop} (hx : Upholds lexemes x P)
    (hf : ∀ a, Upholds lexemes (f a) R) : Upholds lexemes (x >>= f) R :=
  hx.bind fun a _ => hf a

theorem WordSpan.about {span : Span} {e : SyntaxError} (h : WordSpan lexemes span)
    (he : e.span = span) : ∃ l ∈ lexemes, e.About l := by
  obtain ⟨l, hl, hword, rfl⟩ := h
  exact ⟨l, hl, he, fun hend => absurd hend hword⟩

/-! ### Steps -/

namespace Reader

variable {token : Token} {expected : String}

theorem upholds_current : Upholds lexemes current (· ∈ lexemes) := by
  rintro ⟨_ | ⟨l, rest⟩, names⟩ hr
  · exact absurd rfl hr.1
  · exact ⟨hr, hr.2 l List.mem_cons_self⟩

theorem upholds_following : Upholds lexemes following fun _ => True := by
  rintro ⟨_ | ⟨l, _ | ⟨l', rest⟩⟩, names⟩ hr <;> exact ⟨hr, trivial⟩

theorem upholds_advance : Upholds lexemes advance fun _ => True := by
  rintro ⟨_ | ⟨l, _ | ⟨l', rest⟩⟩, names⟩ hr
  · exact ⟨hr, trivial⟩
  · exact ⟨hr, trivial⟩
  · exact ⟨⟨List.cons_ne_nil _ _, fun k hk => hr.2 k (List.mem_cons_of_mem _ hk)⟩, trivial⟩

theorem upholds_internName (text : String) : Upholds lexemes (internName text) fun _ => True :=
  fun _ hr => ⟨hr, trivial⟩

theorem upholds_unexpected : Upholds lexemes (unexpected expected : Read α) Q := by
  refine upholds_current.bind fun l hl => upholds_throw ⟨l, hl, rfl, fun hend => ?_⟩
  exact ⟨expected, by rw [hend]⟩

theorem upholds_eat : Upholds lexemes (eat token) fun _ => True := by
  refine upholds_current.then fun l => ?_
  split
  · exact upholds_advance.then fun _ => upholds_pure trivial
  · exact upholds_pure trivial

theorem upholds_expect : Upholds lexemes (expect token expected) fun _ => True := by
  refine upholds_current.then fun l => ?_
  split
  · exact upholds_advance
  · exact upholds_unexpected

theorem upholds_readIdentifier :
    Upholds lexemes (readIdentifier expected) fun found => WordSpan lexemes found.2 := by
  refine upholds_current.bind fun l hl => ?_
  split
  · rename_i text htoken
    refine upholds_advance.then fun _ => upholds_pure ⟨l, hl, ?_, rfl⟩
    rw [htoken]
    nofun
  · exact upholds_unexpected

/-- The span with a convention is that of its word. -/
def Spanned (lexemes : List Lexeme) (convention : Option (Convention × Span)) : Prop :=
  ∀ found, convention = some found → WordSpan lexemes found.2

theorem upholds_readConvention? : Upholds lexemes readConvention? (Spanned lexemes) := by
  refine upholds_current.bind fun l hl => ?_
  split
  · rename_i keyword htoken
    split
    · refine upholds_following.then fun next => ?_
      split
      · refine upholds_advance.then fun _ => upholds_pure ?_
        rintro found ⟨⟩
        refine ⟨l, hl, ?_, rfl⟩
        rw [htoken]
        nofun
      · exact upholds_pure nofun
    · exact upholds_pure nofun
  · exact upholds_pure nofun

theorem upholds_readMoreTraits : ∀ fuel, Upholds lexemes (readMoreTraits fuel) fun _ => True
  | 0 => upholds_pure trivial
  | fuel + 1 => by
    rw [readMoreTraits]
    refine upholds_eat.then fun ate => ?_
    split
    · refine upholds_readIdentifier.then fun found => ?_
      refine (upholds_internName found.1).then fun name => ?_
      exact (upholds_readMoreTraits fuel).then fun more => upholds_pure trivial
    · exact upholds_pure trivial

theorem upholds_readTraits (fuel : Nat) : Upholds lexemes (readTraits fuel) fun _ => True := by
  refine upholds_current.then fun l => ?_
  split
  · rename_i text _
    refine upholds_advance.then fun _ => (upholds_internName text).then fun name => ?_
    exact (upholds_readMoreTraits fuel).then fun more => upholds_pure trivial
  · exact upholds_pure trivial

theorem upholds_groupOf {items : List Item} (trailingComma : Bool)
    (hitems : ∀ i ∈ items, Spanned lexemes i.convention) :
    Upholds lexemes (groupOf items trailingComma) fun _ => True := by
  unfold groupOf
  split
  · rename_i convention span hfound
    obtain ⟨i, hi, hconvention⟩ := List.exists_of_findSome?_eq_some hfound
    exact upholds_throw ((hitems i hi _ hconvention).about rfl)
  · split <;> exact upholds_pure trivial

/-! ### Readers -/

/-- What the readers of the grammar keep with this fuel. -/
structure UpholdsAll (lexemes : List Lexeme) (scope : List Name) (fuel : Nat) : Prop where
  type : Upholds lexemes (readType scope fuel) fun _ => True
  nominal : ∀ text span, WordSpan lexemes span →
    Upholds lexemes (readNominal scope fuel text span) fun _ => True
  moreTypes : Upholds lexemes (readMoreTypes scope fuel) fun _ => True
  parenthesized : Upholds lexemes (readParenthesized scope fuel) fun _ => True
  items : Upholds lexemes (readItems scope fuel) fun found =>
    ∀ i ∈ found.1, Spanned lexemes i.convention

variable {scope : List Name} {fuel : Nat}

theorem upholds_readType_succ (ih : UpholdsAll lexemes scope fuel) :
    Upholds lexemes (readType scope (fuel + 1)) fun _ => True := by
  rw [readType]
  refine upholds_current.bind fun l hl => ?_
  split
  · exact upholds_advance.then fun _ => ih.parenthesized
  · exact upholds_advance.then fun _ => upholds_pure trivial
  · refine upholds_advance.then fun _ => upholds_readIdentifier.bind fun found hfound => ?_
    dsimp only
    split
    · exact upholds_pure trivial
    · exact upholds_throw (hfound.about rfl)
  · exact upholds_advance.then fun _ => upholds_pure trivial
  · rename_i text htoken
    have hword : WordSpan lexemes l.span := by
      refine ⟨l, hl, ?_, rfl⟩
      rw [htoken]
      nofun
    split
    · exact upholds_advance.then fun _ => upholds_pure trivial
    · split
      · exact upholds_advance.then fun _ =>
          (upholds_readTraits fuel).then fun traits => upholds_pure trivial
      · refine upholds_following.then fun next => ?_
        split
        · exact upholds_throw (hword.about rfl)
        · exact upholds_advance.then fun _ => ih.nominal text l.span hword
  · exact upholds_unexpected

theorem upholds_readNominal_succ (ih : UpholdsAll lexemes scope fuel) (text : String) {span : Span}
    (hspan : WordSpan lexemes span) :
    Upholds lexemes (readNominal scope (fuel + 1) text span) fun _ => True := by
  rw [readNominal]
  refine (upholds_internName text).then fun name => upholds_current.then fun l => ?_
  split
  · exact upholds_pure trivial
  · split
    · exact upholds_throw (hspan.about rfl)
    · refine upholds_advance.then fun _ => ?_
      refine ih.type.then fun first => ih.moreTypes.then fun more => ?_
      exact upholds_expect.then fun _ => upholds_pure trivial

theorem upholds_readMoreTypes_succ (ih : UpholdsAll lexemes scope fuel) :
    Upholds lexemes (readMoreTypes scope (fuel + 1)) fun _ => True := by
  rw [readMoreTypes]
  refine upholds_eat.then fun ate => ?_
  split
  · exact ih.type.then fun type => ih.moreTypes.then fun more => upholds_pure trivial
  · exact upholds_pure trivial

theorem upholds_readParenthesized_succ (ih : UpholdsAll lexemes scope fuel) :
    Upholds lexemes (readParenthesized scope (fuel + 1)) fun _ => True := by
  have hclosed : ∀ (items : List Item) (trailingComma : Bool) (params : List Parameter),
      (∀ i ∈ items, Spanned lexemes i.convention) → Upholds lexemes (do
        expect .closeParen "',' or ')'"
        if ← eat .arrow then
          let result ← readType scope fuel
          return .function params result
        else groupOf items trailingComma) fun _ => True := by
    intro items trailingComma params hitems
    refine upholds_expect.then fun _ => upholds_eat.then fun ate => ?_
    split
    · exact ih.type.then fun result => upholds_pure trivial
    · exact upholds_groupOf trailingComma hitems
  rw [readParenthesized]
  refine upholds_current.then fun l => ?_
  dsimp only
  split
  · exact (upholds_pure (Q := (· = (([] : List Item), false))) rfl).bind fun found hfound => by
      subst hfound
      exact hclosed [] false [] nofun
  · exact ih.items.bind fun found hfound => hclosed found.1 found.2 _ hfound

theorem upholds_readItems_succ (ih : UpholdsAll lexemes scope fuel) :
    Upholds lexemes (readItems scope (fuel + 1)) fun found =>
      ∀ i ∈ found.1, Spanned lexemes i.convention := by
  rw [readItems]
  refine upholds_readConvention?.bind fun convention hconvention => ih.type.then fun type => ?_
  have hitem : ∀ i ∈ [(⟨convention, type⟩ : Item)], Spanned lexemes i.convention := by
    intro i hi
    rw [List.mem_singleton.1 hi]
    exact hconvention
  refine upholds_eat.then fun ate => ?_
  split
  · refine upholds_current.then fun l => ?_
    split
    · exact upholds_pure hitem
    · refine ih.items.bind fun found hfound => upholds_pure ?_
      exact List.forall_mem_cons.2 ⟨hconvention, hfound⟩
  · exact upholds_pure hitem

/-- **The readers of the grammar complain about tokens of the text only.** -/
theorem upholds_readers (lexemes : List Lexeme) (scope : List Name) :
    ∀ fuel, UpholdsAll lexemes scope fuel
  | 0 => {
      type := by
        rw [readType]
        exact upholds_unexpected
      nominal := fun text span _ => by
        rw [readNominal]
        exact upholds_unexpected
      moreTypes := by
        rw [readMoreTypes]
        exact upholds_pure trivial
      parenthesized := by
        rw [readParenthesized]
        exact upholds_unexpected
      items := by
        rw [readItems]
        exact upholds_unexpected }
  | fuel + 1 =>
    have ih := upholds_readers lexemes scope fuel
    { type := upholds_readType_succ ih
      nominal := fun text _ hspan => upholds_readNominal_succ ih text hspan
      moreTypes := upholds_readMoreTypes_succ ih
      parenthesized := upholds_readParenthesized_succ ih
      items := upholds_readItems_succ ih }

theorem upholds_readWhole (scope : List Name) :
    Upholds lexemes (readWhole scope) fun _ => True := by
  have hget : Upholds lexemes (get : Read Reader) fun _ => True := fun _ hr => ⟨hr, trivial⟩
  unfold readWhole
  refine hget.then fun r => (upholds_readers lexemes scope _).type.then fun type => ?_
  exact upholds_expect.then fun _ => upholds_pure trivial

end Reader

/-! ### Texts -/

variable {text : String} {names names' : NameTable} {scope : List Name} {e : SyntaxError}

/-- The error is one of the tokens', or it is about one of them. -/
theorem of_readType_error (h : readType names scope text = (.error e, names')) :
    tokenize text = .error e ∨
      ∃ lexemes, tokenize text = .ok lexemes ∧ ∃ l ∈ lexemes, e.About l := by
  unfold readType at h
  cases htext : tokenize text with
  | error e' =>
    rw [htext] at h
    exact .inl (congrArg Except.error (Except.error.inj (Prod.mk.inj h).1))
  | ok lexemes =>
    rw [htext] at h
    obtain ⟨ts, hts, -⟩ := (located_of_tokenize htext).ended
    have hwithin : Within lexemes ⟨lexemes, names⟩ := by
      refine ⟨?_, fun l hl => hl⟩
      rw [hts]
      exact List.concat_ne_nil _ _
    have hread := Reader.upholds_readWhole scope _ hwithin
    dsimp only at h
    rcases hrun : (Reader.readWhole scope).run.run ⟨lexemes, names⟩ with ⟨e' | a, r'⟩
    · rw [hrun] at h hread
      obtain rfl := Except.error.inj (Prod.mk.inj h).1
      exact .inr ⟨lexemes, rfl, hread⟩
    · rw [hrun] at h
      cases (Prod.mk.inj h).1

theorem Located.eq_end {cs : List Char} {l : Lexeme} (h : Located 0 cs lexemes) (hl : l ∈ lexemes)
    (hempty : l.span.length = 0) : l = ⟨.endOfInput, ⟨byteLength cs, 0⟩⟩ := by
  obtain ⟨ts, rfl, hts⟩ := h.ended
  rcases List.mem_append.1 hl with hl | hl
  · have hpos := (hts l hl).2
    omega
  · rw [List.mem_singleton.1 hl, Nat.zero_add]

/-- **Tokens and errors lie in the text.** The tokens of a text are spelt by disjoint parts of it,
in order, and all else of it is blank; the last of them, the end of the input, is the only one
without characters. And whatever is wrong with a text is wrong at a part of it, which has characters
unless something is missing at its end. -/
theorem located_in_text :
    (∀ text lexemes, tokenize text = .ok lexemes → Located 0 text.toList lexemes ∧
      lexemes.getLast? = some ⟨.endOfInput, ⟨text.utf8ByteSize, 0⟩⟩) ∧
    ∀ names scope text e names', readType names scope text = (.error e, names') →
      (∃ part, Marks 0 text.toList e.span part) ∧
        (e.span.length = 0 → ∃ expected,
          e = .unexpectedToken expected Token.endOfInput.describe ⟨text.utf8ByteSize, 0⟩) := by
  constructor
  · intro text lexemes htext
    have hlocated := located_of_tokenize htext
    refine ⟨hlocated, ?_⟩
    obtain ⟨ts, rfl, -⟩ := hlocated.ended
    rw [List.getLast?_concat, Nat.zero_add, byteLength_toList]
  · intro names scope text e names' h
    rcases of_readType_error h with htext | ⟨lexemes, htext, l, hl, habout⟩
    · obtain ⟨part, hmarks, hpart⟩ := marks_of_scan_error htext
      refine ⟨⟨part, hmarks⟩, fun hempty => ?_⟩
      obtain ⟨before, after, -, hspan⟩ := hmarks
      rw [hspan] at hempty
      exact absurd hempty (byteLength_pos hpart).ne'
    · have hlocated := located_of_tokenize htext
      obtain ⟨part, hmarks, -⟩ := hlocated.marked l hl
      rw [habout.1]
      refine ⟨⟨part, hmarks⟩, fun hempty => ?_⟩
      obtain rfl := hlocated.eq_end hl hempty
      rw [← byteLength_toList]
      exact habout.2 rfl

/-- Characters of several bytes, a variable with a zero, and a bracket missing at the end. -/
theorem located_in_text_missing :
    let text := "Größe<?07 "
    let lexemes : List Lexeme := [⟨.identifier "Größe", ⟨0, 7⟩⟩, ⟨.lessThan, ⟨7, 1⟩⟩,
      ⟨.variable 7, ⟨8, 3⟩⟩, ⟨.endOfInput, ⟨12, 0⟩⟩]
    let e := SyntaxError.unexpectedToken "',' or '>'" "end of input" ⟨12, 0⟩
    Located 0 text.toList lexemes ∧ (readType .empty [] text).1 = .error e ∧
      ∃ part, Marks 0 text.toList e.span part := by
  intro text lexemes e
  have htokens : tokenize text = .ok lexemes := by decide +kernel
  have hread : (readType .empty [] text).1 = .error e := by decide +kernel
  refine ⟨(located_in_text.1 text lexemes htokens).1, hread, ?_⟩
  exact (located_in_text.2 .empty [] text e _ (Prod.ext hread rfl)).1

end Notation
end TypeResolution
