/-
# What is derived is read

The reader accepts all that the grammar derives (`Notation.Derives.readable`). A phrase is read up to
its end, since the token that follows it does not go on with it (`Notation.Phrase.EndsBefore`). The
next token tells which rule was used, but for a word for a convention: this depends on the token
after it, which a type starts with only if the word is a convention. Three calls for each token are
enough.

There is a lemma for each rule, and the induction on the derivation puts them together.

Key definitions: `Notation.Phrase.ReadFrom`, `Notation.Phrase.EndsBefore`, `Notation.Readable`.
Key theorems: `Notation.Derives.readable`.
-/
import TypeResolution.Proofs.Notation.Reading

namespace TypeResolution
namespace Notation

variable {scope : List Name} {names names' : NameTable} {r r' : Reader} {token follow : Token}
variable {ts rest : List Token} {t : Ty} {fuel : Nat} {phrase : Phrase} {text : String}

/-- Whether the phrase ends before the token. -/
def Phrase.EndsBefore (follow : Token) : Phrase → Prop
  | .type _ | .moreTraits _ => follow.endsType = true
  | .moreTypes _ => follow = .greaterThan
  | .item _ => follow = .comma ∨ follow = .closeParen
  | .list .. | .content .. => follow = .closeParen

/-- The part of the reader that is for the phrase leads from one reader to the other. -/
def Phrase.ReadFrom (scope : List Name) (fuel : Nat) (r r' : Reader) : Phrase → Prop
  | .type t => Reads (Reader.readType scope fuel) r t r'
  | .moreTypes ts => Reads (Reader.readMoreTypes scope fuel) r ts r'
  | .moreTraits traits => Reads (Reader.readMoreTraits fuel) r traits r'
  | .item i => r.convention? = i.1 ∧ Reads (Reader.readType scope fuel) r.pastConvention i.2 r'
  | .list items trailingComma => ∃ is : List Item, is.map Item.listed = items ∧
      Reads (Reader.readItems scope (fuel + 1)) r (is, trailingComma) r'
  | .content items trailingComma => ∃ is : List Item, is.map Item.listed = items ∧
      Reader.ReadsContent scope (fuel + 1) r is trailingComma r'

/-- The tokens are read as the phrase, up to a token before which it ends, as long as there is fuel
for them. -/
def Readable (scope : List Name) (names : NameTable) (ts : List Token) (phrase : Phrase)
    (names' : NameTable) : Prop :=
  ∀ {follow : Token} {rest : List Token} {fuel : Nat} {r : Reader}, 3 * ts.length ≤ fuel →
    r.At (ts ++ follow :: rest) names → phrase.EndsBefore follow →
    ∃ r', phrase.ReadFrom scope fuel r r' ∧ r'.At (follow :: rest) names'

theorem exists_fuel (h : 3 * (token :: ts).length ≤ fuel) :
    ∃ k, fuel = k + 3 ∧ 3 * ts.length ≤ k := by
  rw [List.length_cons] at h
  exact ⟨fuel - 3, by omega, by omega⟩

/-- A token that is a type by itself. -/
theorem readable_leaf (h : ∀ {fuel : Nat} {r : Reader}, r.next.token = token →
      Reads (Reader.readType scope (fuel + 1)) r t r.past) :
    Readable scope names [token] (.type t) names := by
  intro follow rest fuel r hfuel hr hend
  obtain ⟨k, rfl, -⟩ := exists_fuel hfuel
  exact ⟨r.past, h hr.next, (hr.past nofun).2⟩

theorem readable_literal (kind : LiteralKind) :
    Readable scope names [.hash, .identifier kind.keyword] (.type (.literal kind)) names := by
  intro follow rest fuel r hfuel hr hend
  obtain ⟨k, rfl, -⟩ := exists_fuel hfuel
  obtain ⟨-, hpast⟩ := hr.past nofun
  obtain ⟨-, hpast'⟩ := hpast.past nofun
  refine ⟨r.past.past, Reader.reads_readType.2 ?_, hpast'⟩
  rw [hr.next]
  exact ⟨kind, r.past.next.span, congrArg (Lexeme.mk · _) hpast.next, rfl, rfl⟩

/-! #### Existentials -/

theorem readable_noTraits : Readable scope names [] (.moreTraits []) names := by
  intro follow rest fuel r hfuel hr hend
  refine ⟨r, ?_, hr⟩
  cases fuel with
  | zero => exact reads_pure.2 ⟨rfl, rfl⟩
  | succ fuel =>
    have hnext : r.next.token ≠ .ampersand := by
      rw [hr.next]
      rintro rfl
      cases hend
    refine Reader.reads_readMoreTraits.2 ?_
    rw [if_neg hnext]
    exact ⟨rfl, rfl⟩

theorem readable_oneMoreTrait {traits : List Name}
    (h : Readable scope (names.intern text).2 ts (.moreTraits traits) names') :
    Readable scope names (.ampersand :: .identifier text :: ts)
      (.moreTraits ((names.intern text).1 :: traits)) names' := by
  intro follow rest fuel r hfuel hr hend
  obtain ⟨k, rfl, hk⟩ := exists_fuel hfuel
  obtain ⟨-, hpast⟩ := hr.past nofun
  obtain ⟨-, hpast'⟩ := hpast.past (by simp)
  have hk' : 3 * ts.length ≤ k + 2 := by
    rw [List.length_cons] at hk
    omega
  obtain ⟨r', hread, hr'⟩ := h hk' (hpast'.named text) hend
  refine ⟨r', Reader.reads_readMoreTraits.2 ?_, hr'⟩
  rw [if_pos hr.next]
  refine ⟨text, r.past.next.span, traits, congrArg (Lexeme.mk · _) hpast.next, hread, ?_⟩
  rw [hpast'.2]

theorem readable_anything :
    Readable scope names [.identifier "any"] (.type (.existential .empty)) names := by
  intro follow rest fuel r hfuel hr hend
  obtain ⟨k, rfl, -⟩ := exists_fuel hfuel
  obtain ⟨-, hpast⟩ := hr.past nofun
  refine ⟨r.past, Reader.reads_readType.2 ?_, hpast⟩
  rw [hr.next]
  refine ⟨.empty, Reader.reads_readTraits.2 ?_, rfl⟩
  rw [hpast.next]
  cases follow <;> first | exact ⟨rfl, rfl⟩ | cases hend

theorem readable_existential {traits : List Name}
    (h : Readable scope (names.intern text).2 ts (.moreTraits traits) names') :
    Readable scope names (.identifier "any" :: .identifier text :: ts)
      (.type (.existential (.ofList ((names.intern text).1 :: traits)))) names' := by
  intro follow rest fuel r hfuel hr hend
  obtain ⟨k, rfl, hk⟩ := exists_fuel hfuel
  obtain ⟨-, hpast⟩ := hr.past nofun
  obtain ⟨-, hpast'⟩ := hpast.past (by simp)
  have hk' : 3 * ts.length ≤ k + 2 := by
    rw [List.length_cons] at hk
    omega
  obtain ⟨r', hread, hr'⟩ := h hk' (hpast'.named text) hend
  refine ⟨r', Reader.reads_readType.2 ?_, hr'⟩
  rw [hr.next]
  refine ⟨_, Reader.reads_readTraits.2 ?_, rfl⟩
  rw [hpast.next]
  exact ⟨traits, hread, by rw [hpast'.2]⟩

/-! #### Names -/

/-- A name that is not taken for a convention is read as a type with its arguments, if it has
any. -/
theorem reads_name (hany : text ≠ "any") (hplaceholder : text ≠ "_")
    (hnext : r.next.token = .identifier text) (hsecond : r.second.startsType = false)
    (h : ∀ span, Reads (Reader.readNominal scope fuel text span) r.past t r') :
    Reads (Reader.readType scope (fuel + 1)) r t r' := by
  refine Reader.reads_readType.2 ?_
  rw [hnext]
  dsimp only
  rw [if_neg hplaceholder, if_neg hany, hsecond]
  exact ⟨fun hkeyword => Bool.false_ne_true hkeyword.2, h _⟩

theorem readable_name (hany : text ≠ "any") (hplaceholder : text ≠ "_")
    (ht : t = if (names.intern text).1 ∈ scope then .param (names.intern text).1
      else .nominal (names.intern text).1 []) :
    Readable scope names [.identifier text] (.type t) (names.intern text).2 := by
  intro follow rest fuel r hfuel hr hend
  obtain ⟨k, rfl, -⟩ := exists_fuel hfuel
  obtain ⟨hsecond, hpast⟩ := hr.past nofun
  refine ⟨r.past.named text, ?_, hpast.named text⟩
  refine reads_name hany hplaceholder hr.next ?_ fun span => Reader.reads_readNominal.2 ?_
  · obtain rfl := Option.some.inj hsecond
    exact Token.startsType_eq_false hend
  · have hless : r.past.next.token ≠ .lessThan := by
      rw [hpast.next]
      rintro rfl
      cases hend
    rw [if_neg hless, hpast.2]
    exact ⟨ht, rfl⟩

theorem readable_generic {names₁ names₂ : NameTable} {us : List Token} {first : Ty}
    {more : List Ty} (hany : text ≠ "any") (hplaceholder : text ≠ "_")
    (hscope : (names.intern text).1 ∉ scope)
    (hfirst : Readable scope (names.intern text).2 ts (.type first) names₁)
    (hmore : Readable scope names₁ us (.moreTypes more) names₂)
    (hfollow : ∀ rest, ∃ token vs, us ++ .greaterThan :: rest = token :: vs ∧
      token.endsType = true) :
    Readable scope names (.identifier text :: .lessThan :: ts ++ us ++ [.greaterThan])
      (.type (.nominal (names.intern text).1 (first :: more))) names₂ := by
  intro follow rest fuel r hfuel hr hend
  obtain ⟨k, rfl, hk⟩ := exists_fuel hfuel
  have htokens : .identifier text :: .lessThan :: ts ++ us ++ [.greaterThan] ++ follow :: rest =
      .identifier text :: .lessThan :: (ts ++ (us ++ .greaterThan :: follow :: rest)) := by simp
  rw [htokens] at hr
  obtain ⟨token, vs, heq, htoken⟩ := hfollow (follow :: rest)
  obtain ⟨hsecond, hpast⟩ := hr.past nofun
  obtain ⟨-, hpast'⟩ := (hpast.named text).past (by simp)
  have hlength : 3 * ts.length ≤ k + 1 ∧ 3 * us.length ≤ k + 1 := by
    simp at hk
    omega
  rw [heq] at hpast'
  obtain ⟨r₁, hread₁, hr₁⟩ := hfirst hlength.1 hpast' htoken
  rw [← heq] at hr₁
  obtain ⟨r₂, hread₂, hr₂⟩ := hmore hlength.2 hr₁ rfl
  refine ⟨r₂.past, ?_, (hr₂.past nofun).2⟩
  refine reads_name hany hplaceholder hr.next ?_ fun span => Reader.reads_readNominal.2 ?_
  · rw [← Option.some.inj hsecond]
    rfl
  · rw [if_pos hpast.next, hpast.2]
    exact ⟨hscope, first, more, r₁, r₂, hread₁, hread₂, hr₂.next, rfl, rfl⟩

theorem readable_noTypes : Readable scope names [] (.moreTypes []) names := by
  intro follow rest fuel r hfuel hr hend
  refine ⟨r, ?_, hr⟩
  cases fuel with
  | zero => exact reads_pure.2 ⟨rfl, rfl⟩
  | succ fuel =>
    have hnext : r.next.token ≠ .comma := by
      rw [hr.next, hend]
      nofun
    refine Reader.reads_readMoreTypes.2 ?_
    rw [if_neg hnext]
    exact ⟨rfl, rfl⟩

theorem readable_oneMoreType {names₁ names₂ : NameTable} {us : List Token} {more : List Ty}
    (h : Readable scope names ts (.type t) names₁)
    (hmore : Readable scope names₁ us (.moreTypes more) names₂)
    (hfollow : ∀ rest, ∃ token vs, us ++ .greaterThan :: rest = token :: vs ∧
      token.endsType = true) :
    Readable scope names (.comma :: ts ++ us) (.moreTypes (t :: more)) names₂ := by
  rintro follow rest fuel r hfuel hr rfl
  obtain ⟨k, rfl, hk⟩ := exists_fuel hfuel
  rw [List.cons_append, List.cons_append, List.append_assoc] at hr
  obtain ⟨token, vs, heq, htoken⟩ := hfollow rest
  obtain ⟨-, hpast⟩ := hr.past (by simp)
  have hlength : 3 * ts.length ≤ k + 2 ∧ 3 * us.length ≤ k + 2 := by
    simp at hk
    omega
  rw [heq] at hpast
  obtain ⟨r₁, hread₁, hr₁⟩ := h hlength.1 hpast htoken
  rw [← heq] at hr₁
  obtain ⟨r₂, hread₂, hr₂⟩ := hmore hlength.2 hr₁ rfl
  refine ⟨r₂, Reader.reads_readMoreTypes.2 ?_, hr₂⟩
  rw [if_pos hr.next]
  exact ⟨t, more, r₁, hread₁, hread₂, rfl⟩

/-! #### Lists -/

/-- A type is not taken for a convention before another one. -/
theorem convention_of_type (h : Derives scope names ts (.type t) names')
    (hr : r.At (ts ++ follow :: rest) names) (hend : follow.endsType = true) :
    r.convention? = none := by
  obtain ⟨token, us, rfl, -⟩ := h.exists_head
  rw [List.cons_append] at hr
  obtain ⟨hsecond, -⟩ := hr.past (by simp)
  unfold Reader.convention?
  rw [hr.next]
  cases token with
  | identifier text =>
    dsimp only
    split
    · rename_i hstarts
      refine Option.not_isSome_iff_eq_none.1 fun hkeyword => ?_
      rcases h.keyword_alone hkeyword rfl with rfl | hless
      · obtain rfl := Option.some.inj hsecond
        rw [Token.startsType_eq_false hend] at hstarts
        cases hstarts
      · rw [List.head?_append, hless] at hsecond
        rw [← Option.some.inj hsecond] at hstarts
        cases hstarts
    · rfl
  | _ => rfl

theorem endsType_of_item {i : ListItem} (h : (Phrase.item i).EndsBefore follow) :
    follow.endsType = true := by
  rcases h with rfl | rfl <;> rfl

theorem readable_plain (hderives : Derives scope names ts (.type t) names')
    (h : Readable scope names ts (.type t) names') :
    Readable scope names ts (.item (none, t)) names' := by
  intro follow rest fuel r hfuel hr hend
  have hconvention := convention_of_type hderives hr (endsType_of_item hend)
  obtain ⟨r', hread, hr'⟩ := h hfuel hr (endsType_of_item hend)
  refine ⟨r', ⟨hconvention, ?_⟩, hr'⟩
  unfold Reader.pastConvention
  rw [hconvention]
  exact hread

theorem readable_passed (convention : Convention) (hderives : Derives scope names ts (.type t) names')
    (h : Readable scope names ts (.type t) names') :
    Readable scope names (.identifier convention.keyword :: ts) (.item (some convention, t))
      names' := by
  intro follow rest fuel r hfuel hr hend
  obtain ⟨k, rfl, hk⟩ := exists_fuel hfuel
  obtain ⟨token, us, rfl, hstarts⟩ := hderives.exists_head
  obtain ⟨hsecond, hpast⟩ := hr.past nofun
  have hconvention : r.convention? = some convention := by
    unfold Reader.convention?
    rw [hr.next, ← Option.some.inj hsecond]
    exact (if_pos hstarts).trans convention.ofKeyword?_keyword
  obtain ⟨r', hread, hr'⟩ := h (Nat.le_trans hk (Nat.le_add_right k 3)) hpast (endsType_of_item hend)
  refine ⟨r', ⟨hconvention, ?_⟩, hr'⟩
  unfold Reader.pastConvention
  rw [hconvention]
  exact hread

theorem listed_convention {i : ListItem} (h : r.convention? = i.1) :
    Item.listed ⟨r.convention?.map (·, r.next.span), i.2⟩ = i := by
  obtain ⟨convention, t⟩ := i
  cases convention <;> simp [Item.listed, h]

theorem readable_single {i : ListItem} (h : Readable scope names ts (.item i) names') :
    Readable scope names ts (.list [i] false) names' := by
  rintro follow rest fuel r hfuel hr rfl
  obtain ⟨r', ⟨hconvention, hread⟩, hr'⟩ := h hfuel hr (.inr rfl)
  refine ⟨r', ⟨[_], congrArg (· :: []) (listed_convention hconvention), ?_⟩, hr'⟩
  refine Reader.reads_readItems.2 ⟨i.2, r', hread, ?_⟩
  rw [hr'.next]
  exact ⟨rfl, rfl, rfl⟩

theorem readable_trailing {i : ListItem} (h : Readable scope names ts (.item i) names') :
    Readable scope names (ts ++ [.comma]) (.list [i] true) names' := by
  rintro follow rest fuel r hfuel hr rfl
  rw [List.append_assoc, List.singleton_append] at hr
  have hlength : 3 * ts.length ≤ fuel := by
    simp at hfuel
    omega
  obtain ⟨r₁, ⟨hconvention, hread⟩, hr₁⟩ := h hlength hr (.inl rfl)
  obtain ⟨-, hpast⟩ := hr₁.past nofun
  refine ⟨r₁.past, ⟨[_], congrArg (· :: []) (listed_convention hconvention), ?_⟩, hpast⟩
  refine Reader.reads_readItems.2 ⟨i.2, r₁, hread, ?_⟩
  rw [hr₁.next, hpast.next]
  exact ⟨rfl, rfl, rfl⟩

/-- A list is not read as closed before its first item. -/
theorem next_ne_closeParen {items : List ListItem} {trailingComma : Bool}
    (h : Derives scope names ts (.list items trailingComma) names')
    (hr : r.At (ts ++ rest) names) : r.next.token ≠ .closeParen := by
  obtain ⟨token, vs, rfl, hstarts⟩ := h.exists_head_list
  rw [hr.next]
  rintro rfl
  cases hstarts

theorem readable_cons {names₁ names₂ : NameTable} {us : List Token} {i : ListItem}
    {items : List ListItem} {trailingComma : Bool}
    (h : Readable scope names ts (.item i) names₁)
    (hderives : Derives scope names₁ us (.list items trailingComma) names₂)
    (hlist : Readable scope names₁ us (.list items trailingComma) names₂) :
    Readable scope names (ts ++ .comma :: us) (.list (i :: items) trailingComma) names₂ := by
  rintro follow rest fuel r hfuel hr rfl
  rw [List.append_assoc, List.cons_append] at hr
  obtain ⟨k, rfl, hlength⟩ : ∃ k, fuel = k + 1 ∧ 3 * ts.length ≤ k + 1 ∧ 3 * us.length ≤ k := by
    simp at hfuel
    exact ⟨fuel - 1, by omega, by omega, by omega⟩
  obtain ⟨r₁, ⟨hconvention, hread⟩, hr₁⟩ := h hlength.1 hr (.inl rfl)
  obtain ⟨-, hpast⟩ := hr₁.past (by simp)
  obtain ⟨r', ⟨is, his, hitems⟩, hr'⟩ := hlist hlength.2 hpast rfl
  have hlisted := listed_convention hconvention
  refine ⟨r', ⟨_ :: is, (congrArg (· :: is.map _) hlisted).trans (congrArg _ his), ?_⟩, hr'⟩
  refine Reader.reads_readItems.2 ⟨i.2, r₁, hread, ?_⟩
  dsimp only
  rw [if_pos hr₁.next, if_neg (next_ne_closeParen hderives hpast)]
  exact ⟨is, hitems, rfl⟩

theorem readable_nothing : Readable scope names [] (.content [] false) names := by
  rintro follow rest fuel r hfuel hr rfl
  refine ⟨r, ⟨[], rfl, ?_⟩, hr⟩
  unfold Reader.ReadsContent
  rw [if_pos hr.next]
  exact ⟨rfl, rfl, rfl⟩

theorem readable_listed {items : List ListItem} {trailingComma : Bool}
    (hderives : Derives scope names ts (.list items trailingComma) names')
    (h : Readable scope names ts (.list items trailingComma) names') :
    Readable scope names ts (.content items trailingComma) names' := by
  rintro follow rest fuel r hfuel hr rfl
  obtain ⟨r', ⟨is, his, hitems⟩, hr'⟩ := h hfuel hr rfl
  refine ⟨r', ⟨is, his, ?_⟩, hr'⟩
  unfold Reader.ReadsContent
  rw [if_neg (next_ne_closeParen hderives hr)]
  exact hitems

/-! #### Parentheses -/

/-- What is read from an opening parenthesis on, if a type is read from what it encloses. -/
theorem reads_parenthesized {fuel : Nat} (hnext : r.next.token = .openParen)
    (h : Reads (Reader.readParenthesized scope fuel) r.past t r') :
    Reads (Reader.readType scope (fuel + 1)) r t r' := by
  refine Reader.reads_readType.2 ?_
  rw [hnext]
  exact h

theorem readable_group_of {items : List ListItem} {trailingComma : Bool}
    (h : Readable scope names ts (.content items trailingComma) names')
    (hgroup : ∀ {is : List Item} {r : Reader}, is.map Item.listed = items →
      Reads (Reader.groupOf is trailingComma) r t r) :
    Readable scope names (.openParen :: ts ++ [.closeParen]) (.type t) names' := by
  intro follow rest fuel r hfuel hr hend
  obtain ⟨k, rfl, hk⟩ := exists_fuel hfuel
  rw [List.append_assoc, List.cons_append] at hr
  obtain ⟨-, hpast⟩ := hr.past (by simp)
  have hlength : 3 * ts.length ≤ k := by
    simp at hk
    omega
  obtain ⟨r₁, ⟨is, his, hcontent⟩, hr₁⟩ := h hlength hpast rfl
  obtain ⟨-, hpast₁⟩ := hr₁.past nofun
  have harrow : r₁.past.next.token ≠ .arrow := by
    rw [hpast₁.next]
    rintro rfl
    cases hend
  refine ⟨r₁.past, reads_parenthesized hr.next (Reader.reads_readParenthesized.2 ?_), hpast₁⟩
  refine ⟨is, trailingComma, r₁, hcontent, hr₁.next, ?_⟩
  rw [if_neg harrow]
  exact hgroup his

theorem convention_of_listed {is : List Item} (h : ∀ i ∈ is.map Item.listed, i.1 = none) :
    ∀ i ∈ is, i.convention = none := by
  intro i hi
  exact Option.map_eq_none_iff.1 (h i.listed (List.mem_map_of_mem hi))

theorem readable_group (h : Readable scope names ts (.content [(none, t)] false) names') :
    Readable scope names (.openParen :: ts ++ [.closeParen]) (.type t) names' := by
  refine readable_group_of h fun {is r} his => Reader.reads_groupOf.2 ?_
  obtain ⟨i, rfl, hi⟩ := List.map_eq_singleton_iff.1 his
  refine ⟨convention_of_listed ?_, rfl, .inl ⟨i, rfl, rfl, ?_⟩⟩
  · rw [his]
    simp
  · exact (congrArg Prod.snd hi).symm

theorem readable_tuple {items : List ListItem} {trailingComma : Bool}
    (h : Readable scope names ts (.content items trailingComma) names')
    (hplain : ∀ i ∈ items, i.1 = none) (hlength : items.length = 1 → trailingComma = true) :
    Readable scope names (.openParen :: ts ++ [.closeParen]) (.type (.tuple (items.map (·.2))))
      names' := by
  refine readable_group_of h fun {is r} his => Reader.reads_groupOf.2 ?_
  subst his
  refine ⟨convention_of_listed hplain, rfl, .inr ⟨by simpa using hlength, ?_⟩⟩
  rw [List.map_map]
  rfl

theorem readable_function {names₁ names₂ : NameTable} {us : List Token} {items : List ListItem}
    {trailingComma : Bool} {result : Ty}
    (h : Readable scope names ts (.content items trailingComma) names₁)
    (hresult : Readable scope names₁ us (.type result) names₂) :
    Readable scope names (.openParen :: ts ++ .closeParen :: .arrow :: us)
      (.type (.function (items.map ListItem.parameter) result)) names₂ := by
  intro follow rest fuel r hfuel hr hend
  obtain ⟨k, rfl, hk⟩ := exists_fuel hfuel
  rw [List.append_assoc, List.cons_append] at hr
  obtain ⟨-, hpast⟩ := hr.past (by simp)
  have hlength : 3 * ts.length ≤ k ∧ 3 * us.length ≤ k + 1 := by
    simp at hk
    omega
  obtain ⟨r₁, ⟨is, his, hcontent⟩, hr₁⟩ := h hlength.1 hpast rfl
  obtain ⟨-, hpast₁⟩ := hr₁.past nofun
  obtain ⟨-, hpast₂⟩ := hpast₁.past (by simp)
  obtain ⟨r', hread, hr'⟩ := hresult hlength.2 hpast₂ hend
  refine ⟨r', reads_parenthesized hr.next (Reader.reads_readParenthesized.2 ?_), hr'⟩
  refine ⟨is, trailingComma, r₁, hcontent, hr₁.next, ?_⟩
  rw [if_pos hpast₁.next]
  refine ⟨result, hread, ?_⟩
  rw [← his, List.map_map]
  rfl

/-- **What is derived is read.** -/
theorem Derives.readable (h : Derives scope names ts phrase names') :
    Readable scope names ts phrase names' := by
  induction h with
  | «variable» => exact readable_leaf fun hnext => Reader.reads_readType.2 (by simp [hnext])
  | literal => exact readable_literal _
  | anything => exact readable_anything
  | existential _ ih => exact readable_existential ih
  | unresolved => exact readable_leaf fun hnext => Reader.reads_readType.2 (by simp [hnext])
  | error => exact readable_leaf fun hnext => Reader.reads_readType.2 (by simp [hnext])
  | param hany hplaceholder hscope =>
    exact readable_name hany hplaceholder (if_pos hscope).symm
  | nominal hany hplaceholder hscope =>
    exact readable_name hany hplaceholder (if_neg hscope).symm
  | generic hany hplaceholder hscope _ hmore ih ih' =>
    exact readable_generic hany hplaceholder hscope ih ih' hmore.exists_follow
  | group _ ih => exact readable_group ih
  | tuple _ hplain hlength ih => exact readable_tuple ih hplain hlength
  | function _ _ ih ih' => exact readable_function ih ih'
  | noTypes => exact readable_noTypes
  | oneMoreType _ hmore ih ih' => exact readable_oneMoreType ih ih' hmore.exists_follow
  | noTraits => exact readable_noTraits
  | oneMoreTrait _ ih => exact readable_oneMoreTrait ih
  | plain h ih => exact readable_plain h ih
  | passed h ih => exact readable_passed _ h ih
  | single _ ih => exact readable_single ih
  | trailing _ ih => exact readable_trailing ih
  | cons _ hlist ih ih' => exact readable_cons ih hlist ih'
  | nothing => exact readable_nothing
  | listed h ih => exact readable_listed h ih

end Notation
end TypeResolution
