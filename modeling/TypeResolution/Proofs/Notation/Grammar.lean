/-
# The grammar of the notation

The grammar is written as rules by which a sequence of tokens stands for something:

    type   = "(" [list] ")" ["->" type]
           | "?" number
           | "#" ("integer" | "float" | "string" | "boolean")
           | "any" [name ("&" name)*]
           | "_" | "!"
           | name ["<" type ("," type)* ">"]
    list   = item ("," item)* [","]
    item   = ["let" | "inout" | "sink" | "set"] type

All words are identifiers, those of the notation too; only `any` and `_` name no type. A word for a
convention may stand before a type in a list that an arrow follows. Names are interned from left to
right, so a rule leads from the names before it to the names after it.

What can follow a phrase is told by the rules around it. A type ends before a token that no type
starts with, and that is not one that goes on with a type (`Token.endsType`).

Key definitions: `Notation.Phrase`, `Notation.Derives`, `Notation.Token.endsType`.
Key theorems: `Notation.Derives.exists_head`, `Notation.Derives.keyword_alone`.
-/
import TypeResolution.Notation.Reader

namespace TypeResolution
namespace Notation

/-- What an item of a list stands for: a type, with a convention if one is written. -/
abbrev ListItem := Option Convention × Ty

/-- The parameter that an item is when an arrow follows the list. -/
def ListItem.parameter (i : ListItem) : Parameter := (i.1.getD .letting, i.2)

/-- What a sequence of tokens stands for. -/
inductive Phrase where
  | type (t : Ty)
  /-- Types with a comma before each. -/
  | moreTypes (ts : List Ty)
  /-- Traits with an ampersand before each. -/
  | moreTraits (names : List Name)
  | item (i : ListItem)
  /-- Items with commas between them, and perhaps one after the last. -/
  | list (items : List ListItem) (trailingComma : Bool)
  /-- A list between parentheses, if there is one. -/
  | content (items : List ListItem) (trailingComma : Bool)

/-- The tokens stand for the phrase in a scope of generic parameters, where the names before and
after them are these. -/
inductive Derives (scope : List Name) : NameTable → List Token → Phrase → NameTable → Prop where
  | variable {names : NameTable} {index : Nat} :
      Derives scope names [.variable index] (.type (.var ⟨index⟩)) names
  | literal {names : NameTable} {kind : LiteralKind} :
      Derives scope names [.hash, .identifier kind.keyword] (.type (.literal kind)) names
  | anything {names : NameTable} :
      Derives scope names [.identifier "any"] (.type (.existential .empty)) names
  | existential {names names' : NameTable} {text : String} {ts : List Token} {traits : List Name} :
      Derives scope (names.intern text).2 ts (.moreTraits traits) names' →
      Derives scope names (.identifier "any" :: .identifier text :: ts)
        (.type (.existential (.ofList ((names.intern text).1 :: traits)))) names'
  | unresolved {names : NameTable} :
      Derives scope names [.identifier "_"] (.type .unresolved) names
  | error {names : NameTable} : Derives scope names [.exclamation] (.type .error) names
  | param {names : NameTable} {text : String} : text ≠ "any" → text ≠ "_" →
      (names.intern text).1 ∈ scope →
      Derives scope names [.identifier text] (.type (.param (names.intern text).1))
        (names.intern text).2
  | nominal {names : NameTable} {text : String} : text ≠ "any" → text ≠ "_" →
      (names.intern text).1 ∉ scope →
      Derives scope names [.identifier text] (.type (.nominal (names.intern text).1 []))
        (names.intern text).2
  | generic {names names₁ names₂ : NameTable} {text : String} {ts us : List Token} {first : Ty}
      {more : List Ty} : text ≠ "any" → text ≠ "_" → (names.intern text).1 ∉ scope →
      Derives scope (names.intern text).2 ts (.type first) names₁ →
      Derives scope names₁ us (.moreTypes more) names₂ →
      Derives scope names (.identifier text :: .lessThan :: ts ++ us ++ [.greaterThan])
        (.type (.nominal (names.intern text).1 (first :: more))) names₂
  | group {names names' : NameTable} {ts : List Token} {t : Ty} :
      Derives scope names ts (.content [(none, t)] false) names' →
      Derives scope names (.openParen :: ts ++ [.closeParen]) (.type t) names'
  | tuple {names names' : NameTable} {ts : List Token} {items : List ListItem}
      {trailingComma : Bool} : Derives scope names ts (.content items trailingComma) names' →
      (∀ i ∈ items, i.1 = none) → (items.length = 1 → trailingComma = true) →
      Derives scope names (.openParen :: ts ++ [.closeParen]) (.type (.tuple (items.map (·.2))))
        names'
  | function {names names₁ names₂ : NameTable} {ts us : List Token} {items : List ListItem}
      {trailingComma : Bool} {result : Ty} :
      Derives scope names ts (.content items trailingComma) names₁ →
      Derives scope names₁ us (.type result) names₂ →
      Derives scope names (.openParen :: ts ++ .closeParen :: .arrow :: us)
        (.type (.function (items.map ListItem.parameter) result)) names₂
  | noTypes {names : NameTable} : Derives scope names [] (.moreTypes []) names
  | oneMoreType {names names₁ names₂ : NameTable} {ts us : List Token} {t : Ty} {more : List Ty} :
      Derives scope names ts (.type t) names₁ → Derives scope names₁ us (.moreTypes more) names₂ →
      Derives scope names (.comma :: ts ++ us) (.moreTypes (t :: more)) names₂
  | noTraits {names : NameTable} : Derives scope names [] (.moreTraits []) names
  | oneMoreTrait {names names' : NameTable} {text : String} {ts : List Token}
      {traits : List Name} : Derives scope (names.intern text).2 ts (.moreTraits traits) names' →
      Derives scope names (.ampersand :: .identifier text :: ts)
        (.moreTraits ((names.intern text).1 :: traits)) names'
  | plain {names names' : NameTable} {ts : List Token} {t : Ty} :
      Derives scope names ts (.type t) names' → Derives scope names ts (.item (none, t)) names'
  | passed {names names' : NameTable} {ts : List Token} {convention : Convention} {t : Ty} :
      Derives scope names ts (.type t) names' →
      Derives scope names (.identifier convention.keyword :: ts) (.item (some convention, t)) names'
  | single {names names' : NameTable} {ts : List Token} {i : ListItem} :
      Derives scope names ts (.item i) names' → Derives scope names ts (.list [i] false) names'
  | trailing {names names' : NameTable} {ts : List Token} {i : ListItem} :
      Derives scope names ts (.item i) names' →
      Derives scope names (ts ++ [.comma]) (.list [i] true) names'
  | cons {names names₁ names₂ : NameTable} {ts us : List Token} {i : ListItem}
      {items : List ListItem} {trailingComma : Bool} : Derives scope names ts (.item i) names₁ →
      Derives scope names₁ us (.list items trailingComma) names₂ →
      Derives scope names (ts ++ .comma :: us) (.list (i :: items) trailingComma) names₂
  | nothing {names : NameTable} : Derives scope names [] (.content [] false) names
  | listed {names names' : NameTable} {ts : List Token} {items : List ListItem}
      {trailingComma : Bool} : Derives scope names ts (.list items trailingComma) names' →
      Derives scope names ts (.content items trailingComma) names'

/-- Whether a type ends before the token. -/
def Token.endsType : Token → Bool
  | .closeParen | .greaterThan | .comma | .endOfInput => true
  | _ => false

theorem Token.startsType_eq_false {token : Token} (h : token.endsType = true) :
    token.startsType = false := by
  cases token <;> first | rfl | cases h

namespace Derives

variable {scope : List Name} {names names' : NameTable} {ts rest : List Token} {t : Ty}

/-- A type starts with a token that types start with. -/
theorem exists_head (h : Derives scope names ts (.type t) names') :
    ∃ token rest, ts = token :: rest ∧ token.startsType = true := by
  cases h with
  | _ => exact ⟨_, _, rfl, rfl⟩

theorem exists_head_item {i : ListItem} (h : Derives scope names ts (.item i) names') :
    ∃ token rest, ts = token :: rest ∧ token.startsType = true := by
  cases h with
  | plain htype => exact htype.exists_head
  | passed _ => exact ⟨_, _, rfl, rfl⟩

theorem exists_head_list {items : List ListItem} {trailingComma : Bool}
    (h : Derives scope names ts (.list items trailingComma) names') :
    ∃ token rest, ts = token :: rest ∧ token.startsType = true := by
  have hitem : ∀ {us vs : List Token} {i : ListItem} {names₁ : NameTable},
      Derives scope names us (.item i) names₁ →
      ∃ token rest, us ++ vs = token :: rest ∧ token.startsType = true := by
    intro us vs i names₁ hi
    obtain ⟨token, rest, rfl, htoken⟩ := hi.exists_head_item
    exact ⟨token, rest ++ vs, rfl, htoken⟩
  cases h with
  | single hi => exact hi.exists_head_item
  | trailing hi => exact hitem hi
  | cons hi _ => exact hitem hi

/-- The types that follow the first one are closed, or start with a comma. -/
theorem exists_follow {more : List Ty} (h : Derives scope names ts (.moreTypes more) names')
    (rest : List Token) :
    ∃ token us, ts ++ .greaterThan :: rest = token :: us ∧ token.endsType = true := by
  cases h with
  | noTypes => exact ⟨_, _, rfl, rfl⟩
  | oneMoreType _ _ => exact ⟨_, _, rfl, rfl⟩

/-- The word for a convention is a type only alone or before its arguments, and so before no token
that a type starts with. -/
theorem keyword_alone {text : String} (h : Derives scope names ts (.type t) names')
    (htext : (Convention.ofKeyword? text).isSome = true) (hts : ts = .identifier text :: rest) :
    rest = [] ∨ rest.head? = some .lessThan := by
  have hany : text ≠ "any" := by
    rintro rfl
    cases htext
  cases h with
  | anything => exact .inl (List.cons.inj hts).2.symm
  | existential _ => exact absurd (Token.identifier.inj (List.cons.inj hts).1).symm hany
  | unresolved => exact .inl (List.cons.inj hts).2.symm
  | param _ _ _ => exact .inl (List.cons.inj hts).2.symm
  | nominal _ _ _ => exact .inl (List.cons.inj hts).2.symm
  | generic _ _ _ _ _ => exact .inr (congrArg List.head? (List.cons.inj hts).2.symm)
  | _ => cases (List.cons.inj hts).1

end Derives

end Notation
end TypeResolution
