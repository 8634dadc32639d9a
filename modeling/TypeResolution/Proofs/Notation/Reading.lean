/-
# Steps of the reader

What each step of the reader does when it succeeds: which token it looks at, which reader it leaves,
and what it goes on with. A reader is known by the tokens that are still to be read and by its
names; the last of the tokens is the end of the input, and is never passed.

Key definitions: `Notation.Reads`, `Notation.Reader.tokens`, `Notation.Reader.past`,
`Notation.Reader.Ready`, `Notation.Reader.At`.
Key theorems: `Notation.reads_bind`, `Notation.reads_readType`, `Notation.reads_readNominal`,
`Notation.reads_readParenthesized`, `Notation.reads_readItems`.
-/
import TypeResolution.Proofs.Notation.Grammar

namespace TypeResolution
namespace Notation

variable {α β : Type} {x : Read α} {f : α → Read β} {r r₁ r' : Reader} {a a' : α} {b : β}

/-- The step succeeds, with a value and a reader that it leaves. -/
def Reads (x : Read α) (r : Reader) (a : α) (r' : Reader) : Prop := x.run.run r = (.ok a, r')

theorem Reads.unique {r'' : Reader} (h : Reads x r a r') (h' : Reads x r a' r'') :
    a = a' ∧ r' = r'' := by
  obtain ⟨ha, hr⟩ := Prod.mk.inj (Eq.trans (Eq.symm h) h')
  exact ⟨Except.ok.inj ha, hr⟩

theorem reads_bind : Reads (x >>= f) r b r' ↔ ∃ a r₁, Reads x r a r₁ ∧ Reads (f a) r₁ b r' := by
  unfold Reads
  rw [ExceptT.run_bind, StateT.run_bind]
  rcases x.run.run r with ⟨e | a, r₁⟩
  · constructor
    · nofun
    · rintro ⟨a, r₁, h, -⟩
      cases h
  · constructor
    · exact fun h => ⟨a, r₁, rfl, h⟩
    · rintro ⟨a', r₁', h, h'⟩
      cases h
      exact h'

/-- What follows a step that is known to succeed. -/
theorem Reads.bind (h : Reads x r a r₁) : Reads (x >>= f) r b r' ↔ Reads (f a) r₁ b r' := by
  refine reads_bind.trans ⟨?_, fun h' => ⟨a, r₁, h, h'⟩⟩
  rintro ⟨a', r₁', hx, hf⟩
  obtain ⟨rfl, rfl⟩ := h.unique hx
  exact hf

theorem reads_pure : Reads (pure a) r a' r' ↔ a' = a ∧ r' = r := by
  constructor
  · intro h
    obtain ⟨ha, hr⟩ := Prod.mk.inj h
    exact ⟨(Except.ok.inj ha).symm, hr.symm⟩
  · rintro ⟨rfl, rfl⟩
    rfl

theorem not_reads_throw {e : SyntaxError} : ¬ Reads (throw e : Read α) r a r' := nofun

/-- What an item is read as. -/
def Item.listed (i : Item) : ListItem := (i.convention.map (·.1), i.type)

namespace Reader

/-- The tokens that are still to be read. -/
def tokens (r : Reader) : List Token := r.unread.map (·.token)

/-- The next lexeme. -/
def next (r : Reader) : Lexeme := r.unread.headD default

/-- The token after the next one. -/
def second (r : Reader) : Token :=
  match r.unread with
  | _ :: l :: _ => l.token
  | [l] => l.token
  | [] => .endOfInput

/-- The reader past the next token. -/
def past (r : Reader) : Reader :=
  match r.unread with
  | _ :: l :: rest => { r with unread := l :: rest }
  | _ => r

/-- The reader with the text among its names. -/
def named (r : Reader) (text : String) : Reader := { r with names := (r.names.intern text).2 }

theorem reads_current (r : Reader) : Reads current r r.next r := rfl

theorem reads_following (r : Reader) : Reads following r r.second r := by
  unfold second following
  rcases r with ⟨_ | ⟨l, _ | ⟨l', rest⟩⟩, names⟩ <;> rfl

theorem reads_advance (r : Reader) : Reads advance r () r.past := by
  unfold past advance
  rcases r with ⟨_ | ⟨l, _ | ⟨l', rest⟩⟩, names⟩ <;> rfl

theorem reads_internName (r : Reader) (text : String) :
    Reads (internName text) r (r.names.intern text).1 (r.named text) := rfl

theorem not_reads_unexpected {expected : String} : ¬ Reads (unexpected expected : Read α) r a r' :=
  nofun

/-- The reader past the next token, if this is the given one. -/
def pastIf (r : Reader) (token : Token) : Reader := if r.next.token = token then r.past else r

theorem reads_eat (r : Reader) (token : Token) :
    Reads (eat token) r (r.next.token = token) (r.pastIf token) := by
  unfold eat pastIf
  rw [(reads_current r).bind]
  split
  · rename_i h
    rw [(reads_advance r).bind, reads_pure]
    simp [h]
  · rename_i h
    rw [reads_pure]
    simp [h]

theorem reads_expect {token : Token} {expected : String} :
    Reads (expect token expected) r () r' ↔ r.next.token = token ∧ r' = r.past := by
  unfold expect
  rw [(reads_current r).bind]
  split
  · rename_i h
    simp only [h, true_and]
    exact ⟨fun h' => ((reads_advance r).unique h').2.symm, fun h' => h' ▸ reads_advance r⟩
  · rename_i h
    simp only [h, false_and, iff_false]
    exact not_reads_unexpected

theorem reads_readIdentifier {expected text : String} {span : Span} :
    Reads (readIdentifier expected) r (text, span) r' ↔
      r.next = ⟨.identifier text, span⟩ ∧ r' = r.past := by
  unfold readIdentifier
  rw [(reads_current r).bind]
  rcases r.next with ⟨token, span'⟩
  cases token with
  | identifier text' =>
    dsimp only
    rw [(reads_advance r).bind, reads_pure]
    simp [eq_comm]
  | _ => simp [not_reads_unexpected]

/-! ### Tokens that are left -/

section Tokens

variable {token u : Token} {ts rest : List Token} {names : NameTable}

@[simp] theorem names_past (r : Reader) : r.past.names = r.names := by
  unfold past
  split <;> rfl

@[simp] theorem tokens_named (r : Reader) (text : String) : (r.named text).tokens = r.tokens := rfl

theorem tokens_cons (h : r.tokens = token :: u :: rest) :
    r.next.token = token ∧ r.second = u ∧ r.past.tokens = u :: rest := by
  obtain ⟨unread, names⟩ := r
  rcases unread with _ | ⟨l, _ | ⟨l', unread⟩⟩
  · cases h
  · cases h
  · simp only [tokens, List.map_cons, List.cons.injEq] at h
    obtain ⟨rfl, rfl, rfl⟩ := h
    exact ⟨rfl, rfl, rfl⟩

theorem next_of_tokens (h : r.tokens = token :: rest) : r.next.token = token := by
  obtain ⟨_ | ⟨l, unread⟩, names⟩ := r
  · cases h
  · exact (List.cons.inj h).1

/-- The last of the tokens is the end of the input. -/
def Ready (r : Reader) : Prop := ∃ ts, r.tokens = ts ++ [.endOfInput]

/-- What is not the end of the input can be passed. -/
theorem Ready.past (h : r.Ready) (hnext : r.next.token = token) (hne : token ≠ .endOfInput) :
    r.tokens = token :: r.past.tokens ∧ r.second = r.past.next.token ∧ r.past.Ready := by
  obtain ⟨ts, hts⟩ := h
  rcases ts with _ | ⟨first, _ | ⟨second, ts⟩⟩
  · exact absurd (hnext.symm.trans (next_of_tokens hts)) hne
  all_goals
    obtain ⟨hfirst, hsecond, hpast⟩ := tokens_cons hts
    obtain rfl := hnext.symm.trans hfirst
    refine ⟨hts.trans (congrArg _ hpast.symm), hsecond.trans (next_of_tokens hpast).symm, ?_⟩
  · exact ⟨[], hpast⟩
  · exact ⟨second :: ts, hpast⟩

/-- The tokens that are left, and the names. -/
def At (r : Reader) (ts : List Token) (names : NameTable) : Prop :=
  r.tokens = ts ∧ r.names = names

theorem At.next (h : r.At (token :: rest) names) : r.next.token = token := next_of_tokens h.1

theorem At.past (h : r.At (token :: ts) names) (hne : ts ≠ []) :
    ts.head? = some r.second ∧ r.past.At ts names := by
  obtain ⟨htokens, hnames⟩ := h
  rcases ts with _ | ⟨u, ts⟩
  · exact absurd rfl hne
  · obtain ⟨-, hsecond, hpast⟩ := tokens_cons htokens
    exact ⟨congrArg some hsecond.symm, hpast, (names_past r).trans hnames⟩

theorem At.named (h : r.At ts names) (text : String) :
    (r.named text).At ts (names.intern text).2 := by
  obtain ⟨rfl, rfl⟩ := h
  exact ⟨rfl, rfl⟩

end Tokens

/-! ### Traits, conventions and groups -/

/-- The convention that stands before a type, if one does. -/
def convention? (r : Reader) : Option Convention :=
  match r.next.token with
  | .identifier keyword => if r.second.startsType then Convention.ofKeyword? keyword else none
  | _ => none

/-- The reader past a convention, if one stands before a type. -/
def pastConvention (r : Reader) : Reader := if r.convention?.isSome then r.past else r

theorem next_of_convention {convention : Convention} (h : r.convention? = some convention) :
    r.next.token = .identifier convention.keyword := by
  unfold convention? at h
  split at h
  · rename_i keyword hnext
    split at h
    · rw [hnext, Convention.keyword_of_ofKeyword? h]
    · cases h
  · cases h

theorem reads_readConvention (r : Reader) :
    Reads readConvention? r (r.convention?.map (·, r.next.span)) r.pastConvention := by
  unfold readConvention? pastConvention convention?
  rw [(reads_current r).bind]
  cases r.next.token with
  | identifier keyword =>
    dsimp only
    by_cases hstarts : r.second.startsType = true
    · simp only [hstarts, if_true]
      cases Convention.ofKeyword? keyword with
      | none => exact reads_pure.2 ⟨rfl, rfl⟩
      | some convention =>
        refine (reads_following r).bind.2 ?_
        rw [if_pos hstarts]
        exact (reads_advance r).bind.2 (reads_pure.2 ⟨rfl, rfl⟩)
    · simp only [hstarts]
      cases Convention.ofKeyword? keyword with
      | none => exact reads_pure.2 ⟨rfl, rfl⟩
      | some convention =>
        refine (reads_following r).bind.2 ?_
        rw [if_neg hstarts]
        exact reads_pure.2 ⟨rfl, rfl⟩
  | _ => exact reads_pure.2 ⟨rfl, rfl⟩

variable {fuel : Nat} {traits : List Name} {scope : List Name} {t : Ty} {ts : List Ty}
variable {items : List Item} {trailingComma : Bool}

theorem reads_readMoreTraits : Reads (readMoreTraits (fuel + 1)) r traits r' ↔
    if r.next.token = .ampersand then
      ∃ text span rest, r.past.next = ⟨.identifier text, span⟩ ∧
        Reads (readMoreTraits fuel) (r.past.past.named text) rest r' ∧
        traits = (r.past.past.names.intern text).1 :: rest
    else traits = [] ∧ r' = r := by
  rw [readMoreTraits, (reads_eat r .ampersand).bind]
  unfold pastIf
  by_cases h : r.next.token = .ampersand
  · simp only [h, decide_true, if_true]
    rw [reads_bind]
    constructor
    · rintro ⟨⟨text, span⟩, r₁, hidentifier, hrest⟩
      obtain ⟨hnext, rfl⟩ := reads_readIdentifier.1 hidentifier
      dsimp only at hrest
      rw [(reads_internName _ text).bind, reads_bind] at hrest
      obtain ⟨rest, r₂, hmore, hpure⟩ := hrest
      obtain ⟨rfl, rfl⟩ := reads_pure.1 hpure
      exact ⟨text, span, rest, hnext, hmore, rfl⟩
    · rintro ⟨text, span, rest, hnext, hmore, rfl⟩
      refine ⟨(text, span), r.past.past, reads_readIdentifier.2 ⟨hnext, rfl⟩, ?_⟩
      dsimp only
      rw [(reads_internName _ text).bind, hmore.bind, reads_pure]
      exact ⟨rfl, rfl⟩
  · simp only [h, decide_false, Bool.false_eq_true, if_false]
    exact reads_pure

theorem reads_readTraits {set : TraitSet} : Reads (readTraits fuel) r set r' ↔
    match r.next.token with
    | .identifier text => ∃ more, Reads (readMoreTraits fuel) (r.past.named text) more r' ∧
        set = .ofList ((r.past.names.intern text).1 :: more)
    | _ => set = .empty ∧ r' = r := by
  unfold readTraits
  rw [(reads_current r).bind]
  cases r.next.token with
  | identifier text =>
    dsimp only
    rw [(reads_advance r).bind, (reads_internName _ text).bind, reads_bind]
    simp only [reads_pure]
    constructor
    · rintro ⟨more, r₁, hmore, rfl, rfl⟩
      exact ⟨more, hmore, rfl⟩
    · rintro ⟨more, hmore, rfl⟩
      exact ⟨more, r', hmore, rfl, rfl⟩
  | _ => exact reads_pure

theorem reads_groupOf : Reads (groupOf items trailingComma) r t r' ↔
    (∀ i ∈ items, i.convention = none) ∧ r' = r ∧
      ((∃ i, items = [i] ∧ trailingComma = false ∧ t = i.type) ∨
        (items.length = 1 → trailingComma = true) ∧ t = .tuple (items.map (·.type))) := by
  unfold groupOf
  cases hfound : items.findSome? (·.convention) with
  | some found =>
    simp only [not_reads_throw, false_iff, not_and]
    intro hnone
    obtain ⟨i, hi, hconvention⟩ := List.exists_of_findSome?_eq_some hfound
    rw [hnone i hi] at hconvention
    cases hconvention
  | none =>
    have hnone := List.findSome?_eq_none_iff.1 hfound
    have hnone' : ∀ i ∈ items, i.convention = none := fun i hi => by simpa using hnone i hi
    rw [iff_true_intro hnone', true_and]
    rcases items with _ | ⟨i, _ | ⟨i', items⟩⟩
    · simp [reads_pure, and_comm]
    · cases trailingComma
      · simp [reads_pure, and_comm]
      · simp [reads_pure, and_comm]
    · simp [reads_pure, and_comm]

theorem reads_readType : Reads (readType scope (fuel + 1)) r t r' ↔
    match r.next.token with
    | .openParen => Reads (readParenthesized scope fuel) r.past t r'
    | .variable index => t = .var ⟨index⟩ ∧ r' = r.past
    | .hash => ∃ kind span, r.past.next = ⟨.identifier kind.keyword, span⟩ ∧ t = .literal kind ∧
        r' = r.past.past
    | .exclamation => t = .error ∧ r' = r.past
    | .identifier text =>
      if text = "_" then t = .unresolved ∧ r' = r.past
      else if text = "any" then
        ∃ traits, Reads (readTraits fuel) r.past traits r' ∧ t = .existential traits
      else ¬ ((Convention.ofKeyword? text).isSome = true ∧ r.second.startsType = true) ∧
        Reads (readNominal scope fuel text r.next.span) r.past t r'
    | _ => False := by
  rw [readType, (reads_current r).bind]
  cases r.next.token with
  | openParen => exact (reads_advance r).bind
  | «variable» index => exact (reads_advance r).bind.trans reads_pure
  | hash =>
    refine (reads_advance r).bind.trans (reads_bind.trans ⟨?_, ?_⟩)
    · rintro ⟨⟨keyword, span⟩, r₁, hidentifier, hkind⟩
      obtain ⟨hnext, rfl⟩ := reads_readIdentifier.1 hidentifier
      dsimp only at hkind
      split at hkind
      · rename_i kind hkeyword
        obtain ⟨rfl, rfl⟩ := reads_pure.1 hkind
        rw [← LiteralKind.keyword_of_ofKeyword? hkeyword] at hnext
        exact ⟨kind, span, hnext, rfl, rfl⟩
      · exact absurd hkind not_reads_throw
    · rintro ⟨kind, span, hnext, rfl, rfl⟩
      refine ⟨(kind.keyword, span), r.past.past, reads_readIdentifier.2 ⟨hnext, rfl⟩, ?_⟩
      dsimp only
      rw [LiteralKind.ofKeyword?_keyword]
      exact reads_pure.2 ⟨rfl, rfl⟩
  | exclamation => exact (reads_advance r).bind.trans reads_pure
  | identifier text =>
    dsimp only
    split
    · exact (reads_advance r).bind.trans reads_pure
    · split
      · refine (reads_advance r).bind.trans (reads_bind.trans ?_)
        simp only [reads_pure]
        constructor
        · rintro ⟨traits, r₁, htraits, rfl, rfl⟩
          exact ⟨traits, htraits, rfl⟩
        · rintro ⟨traits, htraits, rfl⟩
          exact ⟨traits, r', htraits, rfl, rfl⟩
      · refine (reads_following r).bind.trans ?_
        split
        · rename_i hkeyword
          simp [hkeyword, not_reads_throw]
        · rename_i hkeyword
          exact (reads_advance r).bind.trans (and_iff_right hkeyword).symm
  | _ => exact iff_false_intro not_reads_unexpected

theorem reads_readNominal {text : String} {span : Span} :
    Reads (readNominal scope (fuel + 1) text span) r t r' ↔
      if r.next.token = .lessThan then
        (r.names.intern text).1 ∉ scope ∧ ∃ first more r₁ r₂,
          Reads (readType scope fuel) (r.named text).past first r₁ ∧
          Reads (readMoreTypes scope fuel) r₁ more r₂ ∧
          r₂.next.token = .greaterThan ∧ r' = r₂.past ∧
          t = .nominal (r.names.intern text).1 (first :: more)
      else
        t = (if (r.names.intern text).1 ∈ scope then .param (r.names.intern text).1
          else .nominal (r.names.intern text).1 []) ∧ r' = r.named text := by
  rw [readNominal, (reads_internName r text).bind, (reads_current (r.named text)).bind]
  have hnext : (r.named text).next = r.next := rfl
  rw [hnext]
  by_cases hless : r.next.token = .lessThan
  · rw [if_neg fun h => h hless, if_pos hless]
    by_cases hscope : (r.names.intern text).1 ∈ scope
    · simp [hscope, not_reads_throw]
    · rw [if_neg hscope, and_iff_right hscope]
      refine (reads_advance (r.named text)).bind.trans ?_
      simp only [reads_bind, reads_pure]
      constructor
      · rintro ⟨first, r₁, hfirst, more, r₂, hmore, _, r₃, hexpect, rfl, rfl⟩
        obtain ⟨hgreater, rfl⟩ := reads_expect.1 hexpect
        exact ⟨first, more, r₁, r₂, hfirst, hmore, hgreater, rfl, rfl⟩
      · rintro ⟨first, more, r₁, r₂, hfirst, hmore, hgreater, rfl, rfl⟩
        exact ⟨first, r₁, hfirst, more, r₂, hmore, (), r₂.past, reads_expect.2 ⟨hgreater, rfl⟩, rfl,
          rfl⟩
  · rw [if_pos hless, if_neg hless]
    exact reads_pure

theorem reads_readMoreTypes : Reads (readMoreTypes scope (fuel + 1)) r ts r' ↔
    if r.next.token = .comma then
      ∃ first more r₁, Reads (readType scope fuel) r.past first r₁ ∧
        Reads (readMoreTypes scope fuel) r₁ more r' ∧ ts = first :: more
    else ts = [] ∧ r' = r := by
  rw [readMoreTypes, (reads_eat r .comma).bind]
  unfold pastIf
  by_cases h : r.next.token = .comma
  · simp only [h, decide_true, if_true, reads_bind, reads_pure]
    constructor
    · rintro ⟨first, r₁, hfirst, more, r₂, hmore, rfl, rfl⟩
      exact ⟨first, more, r₁, hfirst, hmore, rfl⟩
    · rintro ⟨first, more, r₁, hfirst, hmore, rfl⟩
      exact ⟨first, r₁, hfirst, more, r', hmore, rfl, rfl⟩
  · simp only [h, decide_false, Bool.false_eq_true, if_false]
    exact reads_pure

theorem reads_readItems : Reads (readItems scope (fuel + 1)) r (items, trailingComma) r' ↔
    ∃ type r₁, Reads (readType scope fuel) r.pastConvention type r₁ ∧
      let item : Item := ⟨r.convention?.map (·, r.next.span), type⟩
      if r₁.next.token = .comma then
        if r₁.past.next.token = .closeParen then
          items = [item] ∧ trailingComma = true ∧ r' = r₁.past
        else ∃ rest, Reads (readItems scope fuel) r₁.past (rest, trailingComma) r' ∧
          items = item :: rest
      else items = [item] ∧ trailingComma = false ∧ r' = r₁ := by
  rw [readItems, (reads_readConvention r).bind, reads_bind]
  refine exists_congr fun type => exists_congr fun r₁ => and_congr_right fun _ => ?_
  dsimp only
  refine (reads_eat r₁ .comma).bind.trans ?_
  unfold pastIf
  by_cases hcomma : r₁.next.token = .comma
  · simp only [hcomma, decide_true, if_true]
    refine (reads_current r₁.past).bind.trans ?_
    split
    · rw [reads_pure]
      simp [and_assoc]
    · rw [reads_bind]
      constructor
      · rintro ⟨⟨rest, trailing⟩, r₂, hrest, hpure⟩
        obtain ⟨heq, rfl⟩ := reads_pure.1 hpure
        obtain ⟨rfl, rfl⟩ := Prod.mk.inj heq
        exact ⟨rest, hrest, rfl⟩
      · rintro ⟨rest, hrest, rfl⟩
        exact ⟨(rest, trailingComma), r', hrest, reads_pure.2 ⟨rfl, rfl⟩⟩
  · simp only [hcomma, decide_false, Bool.false_eq_true, if_false]
    rw [reads_pure]
    simp [and_assoc]

theorem reads_closed {ifArrow ifNone : Read Ty} {P : Reader → Prop}
    (harrow : ∀ r, Reads ifArrow r t r' ↔ P r) :
    Reads (do
      expect .closeParen "',' or ')'"
      if ← eat .arrow then ifArrow else ifNone) r t r' ↔
      r.next.token = .closeParen ∧
        if r.past.next.token = .arrow then P r.past.past else Reads ifNone r.past t r' := by
  have heat : ∀ r₁ : Reader, Reads (do if ← eat .arrow then ifArrow else ifNone) r₁ t r' ↔
      if r₁.next.token = .arrow then P r₁.past else Reads ifNone r₁ t r' := by
    intro r₁
    refine (reads_eat r₁ .arrow).bind.trans ?_
    unfold pastIf
    by_cases h : r₁.next.token = .arrow <;> simp [h, harrow]
  rw [reads_bind]
  constructor
  · rintro ⟨_, r₁, hexpect, hrest⟩
    obtain ⟨hclose, rfl⟩ := reads_expect.1 hexpect
    exact ⟨hclose, (heat _).1 hrest⟩
  · rintro ⟨hclose, hrest⟩
    exact ⟨(), r.past, reads_expect.2 ⟨hclose, rfl⟩, (heat _).2 hrest⟩

/-- What a list between parentheses is read as, up to where it is closed. -/
def ReadsContent (scope : List Name) (fuel : Nat) (r : Reader) (items : List Item)
    (trailingComma : Bool) (r' : Reader) : Prop :=
  if r.next.token = .closeParen then items = [] ∧ trailingComma = false ∧ r' = r
  else Reads (readItems scope fuel) r (items, trailingComma) r'

/-- The result of a function is read after its parameters, however these are written. -/
theorem reads_function {params params' : List Parameter} (hparams : params = params')
    (r : Reader) :
    Reads (do
      let result ← readType scope fuel
      return .function params result) r t r' ↔
    ∃ result, Reads (readType scope fuel) r result r' ∧ t = .function params' result := by
  rw [reads_bind, hparams]
  simp only [reads_pure]
  constructor
  · rintro ⟨result, r₁, hresult, rfl, rfl⟩
    exact ⟨result, hresult, rfl⟩
  · rintro ⟨result, hresult, rfl⟩
    exact ⟨result, r', hresult, rfl, rfl⟩

theorem reads_readParenthesized : Reads (readParenthesized scope (fuel + 1)) r t r' ↔
    ∃ items trailingComma r₁, ReadsContent scope fuel r items trailingComma r₁ ∧
      r₁.next.token = .closeParen ∧
      if r₁.past.next.token = .arrow then
        ∃ result, Reads (readType scope fuel) r₁.past.past result r' ∧
          t = .function (items.map fun i => i.listed.parameter) result
      else Reads (groupOf items trailingComma) r₁.past t r' := by
  rw [readParenthesized, (reads_current r).bind]
  unfold ReadsContent
  dsimp only
  split
  · refine (reads_pure.2 ⟨rfl, rfl⟩).bind.trans ((reads_closed (reads_function rfl)).trans ?_)
    constructor
    · exact fun h => ⟨[], false, r, ⟨rfl, rfl, rfl⟩, h⟩
    · rintro ⟨items, trailingComma, r₁, ⟨rfl, rfl, rfl⟩, h⟩
      exact h
  · rw [reads_bind, Prod.exists]
    refine exists_congr fun items => exists_congr fun trailingComma => exists_congr fun r₁ =>
      and_congr_right fun _ => reads_closed (reads_function (List.map_congr_left fun i _ => ?_))
    rcases i with ⟨_ | ⟨convention, span⟩, type⟩ <;> rfl

theorem reads_readWhole : Reads (readWhole scope) r t r' ↔
    ∃ r₁, Reads (readType scope (3 * r.unread.length)) r t r₁ ∧ r₁.next.token = .endOfInput ∧
      r' = r₁.past := by
  have hget : Reads (get : Read Reader) r r r := rfl
  unfold readWhole
  rw [hget.bind, reads_bind]
  simp only [reads_bind, reads_pure]
  constructor
  · rintro ⟨type, r₁, htype, _, r₂, hexpect, rfl, rfl⟩
    exact ⟨r₁, htype, reads_expect.1 hexpect⟩
  · rintro ⟨r₁, htype, hend, rfl⟩
    exact ⟨t, r₁, htype, (), r₁.past, reads_expect.2 ⟨hend, rfl⟩, rfl, rfl⟩

end Reader
end Notation
end TypeResolution
