/-
# What is read is derived

The reader accepts nothing but what the grammar derives. This is seen along its recursion: each part
of the reader that succeeds has passed tokens that stand for its result (`Notation.Sound`), whatever
the bound on the recursion.

Key definitions: `Notation.Sees`, `Notation.Sound`.
Key theorems: `Notation.sound`.
-/
import TypeResolution.Proofs.Notation.Reading

namespace TypeResolution
namespace Notation

variable {scope : List Name} {r r' : Reader} {token : Token} {t : Ty} {fuel : Nat}
variable {phrase : Phrase} {text : String}

/-- Between the readers stand tokens which, after others, stand for the phrase. -/
def Sees (scope : List Name) (before : List Token) (r : Reader) (phrase : Phrase) (r' : Reader) :
    Prop :=
  ∃ ts, r.tokens = ts ++ r'.tokens ∧ r'.Ready ∧ Derives scope r.names (before ++ ts) phrase r'.names

/-- Whatever the parts of the reader come to within a bound on their recursion is derived. -/
structure Sound (scope : List Name) (fuel : Nat) : Prop where
  type : ∀ {r r' t}, r.Ready → Reads (Reader.readType scope fuel) r t r' →
    Sees scope [] r (.type t) r'
  nominal : ∀ {r r' t text span}, text ≠ "any" → text ≠ "_" → r.Ready →
    Reads (Reader.readNominal scope fuel text span) r t r' →
    Sees scope [.identifier text] r (.type t) r'
  moreTypes : ∀ {r r' ts}, r.Ready → Reads (Reader.readMoreTypes scope fuel) r ts r' →
    Sees scope [] r (.moreTypes ts) r'
  parenthesized : ∀ {r r' t}, r.Ready → Reads (Reader.readParenthesized scope fuel) r t r' →
    Sees scope [.openParen] r (.type t) r'
  items : ∀ {r r' items trailingComma}, r.Ready →
    Reads (Reader.readItems scope fuel) r (items, trailingComma) r' →
    Sees scope [] r (.list (items.map Item.listed) trailingComma) r'

/-- A token is passed before the rest of the phrase. -/
theorem Sees.pass {before : List Token} (hr : r.Ready) (hnext : r.next.token = token)
    (hne : token ≠ .endOfInput) (h : Sees scope (before ++ [token]) r.past phrase r') :
    Sees scope before r phrase r' := by
  obtain ⟨htokens, -, -⟩ := hr.past hnext hne
  obtain ⟨ts, hts, hr', hderives⟩ := h
  refine ⟨token :: ts, by rw [htokens, hts, List.cons_append], hr', ?_⟩
  rwa [Reader.names_past, List.append_assoc, List.singleton_append] at hderives

theorem sees_moreTraits : ∀ {fuel : Nat} {r r' : Reader} {traits : List Name}, r.Ready →
    Reads (Reader.readMoreTraits fuel) r traits r' → Sees scope [] r (.moreTraits traits) r'
  | 0, r, r', traits, hr, h => by
    obtain ⟨rfl, rfl⟩ := reads_pure.1 h
    exact ⟨[], rfl, hr, .noTraits⟩
  | fuel + 1, r, r', traits, hr, h => by
    rw [Reader.reads_readMoreTraits] at h
    split at h
    · rename_i hnext
      obtain ⟨text, span, more, hidentifier, hmore, rfl⟩ := h
      obtain ⟨-, -, hpast⟩ := hr.past hnext nofun
      have hidentifier := congrArg Lexeme.token hidentifier
      obtain ⟨-, -, hpast'⟩ := hpast.past hidentifier nofun
      refine .pass hr hnext nofun (.pass hpast hidentifier nofun ?_)
      obtain ⟨ts, hts, hr', hderives⟩ := sees_moreTraits (r := r.past.past.named text) hpast' hmore
      exact ⟨ts, hts, hr', .oneMoreTrait hderives⟩
    · obtain ⟨rfl, rfl⟩ := h
      exact ⟨[], rfl, hr, .noTraits⟩

theorem sees_traits {traits : TraitSet} (hr : r.Ready)
    (h : Reads (Reader.readTraits fuel) r traits r') :
    Sees scope [.identifier "any"] r (.type (.existential traits)) r' := by
  rw [Reader.reads_readTraits] at h
  split at h
  · rename_i text hnext
    obtain ⟨more, hmore, rfl⟩ := h
    obtain ⟨-, -, hpast⟩ := hr.past hnext nofun
    refine .pass hr hnext nofun ?_
    have hsees : Sees scope [] (r.past.named text) (.moreTraits more) r' :=
      sees_moreTraits hpast hmore
    obtain ⟨ts, hts, hr', hderives⟩ := hsees
    exact ⟨ts, hts, hr', .existential hderives⟩
  · obtain ⟨rfl, rfl⟩ := h
    exact ⟨[], rfl, hr, .anything⟩

/-- A list, or what no list is read as. -/
theorem Sound.content (h : Sound scope fuel) {items : List Item} {trailingComma : Bool}
    (hr : r.Ready) (hcontent : Reader.ReadsContent scope fuel r items trailingComma r') :
    Sees scope [] r (.content (items.map Item.listed) trailingComma) r' := by
  unfold Reader.ReadsContent at hcontent
  split at hcontent
  · obtain ⟨rfl, rfl, rfl⟩ := hcontent
    exact ⟨[], rfl, hr, .nothing⟩
  · obtain ⟨ts, hts, hr', hderives⟩ := h.items hr hcontent
    exact ⟨ts, hts, hr', .listed hderives⟩

namespace Sound

variable (h : Sound scope fuel)
include h

theorem type_succ (hr : r.Ready) (hreads : Reads (Reader.readType scope (fuel + 1)) r t r') :
    Sees scope [] r (.type t) r' := by
  rw [Reader.reads_readType] at hreads
  split at hreads
  · rename_i hnext
    exact .pass hr hnext nofun (h.parenthesized (hr.past hnext nofun).2.2 hreads)
  · rename_i index hnext
    obtain ⟨rfl, rfl⟩ := hreads
    exact .pass hr hnext nofun ⟨[], rfl, (hr.past hnext nofun).2.2, .variable⟩
  · rename_i hnext
    obtain ⟨kind, span, hkeyword, rfl, rfl⟩ := hreads
    have hpast := (hr.past hnext nofun).2.2
    have hkeyword := congrArg Lexeme.token hkeyword
    refine .pass hr hnext nofun (.pass hpast hkeyword nofun ?_)
    exact ⟨[], rfl, (hpast.past hkeyword nofun).2.2, .literal⟩
  · rename_i hnext
    obtain ⟨rfl, rfl⟩ := hreads
    exact .pass hr hnext nofun ⟨[], rfl, (hr.past hnext nofun).2.2, .error⟩
  · rename_i text hnext
    have hpast := (hr.past hnext nofun).2.2
    refine .pass hr hnext nofun ?_
    split at hreads
    · rename_i htext
      subst htext
      obtain ⟨rfl, rfl⟩ := hreads
      exact ⟨[], rfl, hpast, .unresolved⟩
    · rename_i hplaceholder
      split at hreads
      · rename_i htext
        subst htext
        obtain ⟨traits, htraits, rfl⟩ := hreads
        exact sees_traits hpast htraits
      · rename_i hany
        exact h.nominal hany hplaceholder hpast hreads.2
  · exact hreads.elim

theorem nominal_succ {span : Span} (hany : text ≠ "any") (hplaceholder : text ≠ "_") (hr : r.Ready)
    (hreads : Reads (Reader.readNominal scope (fuel + 1) text span) r t r') :
    Sees scope [.identifier text] r (.type t) r' := by
  rw [Reader.reads_readNominal] at hreads
  split at hreads
  · rename_i hless
    obtain ⟨hscope, first, more, r₁, r₂, hfirst, hmore, hgreater, rfl, rfl⟩ := hreads
    have hnamed : (r.named text).Ready := hr
    obtain ⟨htokens, -, hpast⟩ := hnamed.past hless nofun
    obtain ⟨ts, hts, hr₁, hderives⟩ := h.type hpast hfirst
    obtain ⟨us, hus, hr₂, hderives'⟩ := h.moreTypes hr₁ hmore
    obtain ⟨hgreater, -, hr'⟩ := hr₂.past hgreater nofun
    have hgeneric : Derives scope r.names (.identifier text :: .lessThan :: ts ++ us ++ [.greaterThan])
        (.type (.nominal (r.names.intern text).1 (first :: more))) r₂.names := by
      rw [Reader.names_past] at hderives
      exact .generic hany hplaceholder hscope hderives hderives'
    refine ⟨.lessThan :: ts ++ us ++ [.greaterThan], ?_, hr', (Reader.names_past r₂).symm ▸ hgeneric⟩
    rw [← r.tokens_named text, htokens, hts, hus, hgreater]
    simp
  · obtain ⟨rfl, rfl⟩ := hreads
    refine ⟨[], rfl, hr, ?_⟩
    split
    · rename_i hscope
      exact .param hany hplaceholder hscope
    · rename_i hscope
      exact .nominal hany hplaceholder hscope

theorem moreTypes_succ {ts : List Ty} (hr : r.Ready)
    (hreads : Reads (Reader.readMoreTypes scope (fuel + 1)) r ts r') :
    Sees scope [] r (.moreTypes ts) r' := by
  rw [Reader.reads_readMoreTypes] at hreads
  split at hreads
  · rename_i hnext
    obtain ⟨first, more, r₁, hfirst, hmore, rfl⟩ := hreads
    obtain ⟨ts, hts, hr₁, hderives⟩ := h.type (hr.past hnext nofun).2.2 hfirst
    obtain ⟨us, hus, hr', hderives'⟩ := h.moreTypes hr₁ hmore
    have hcomma : Derives scope r.past.names (.comma :: ts ++ us) (.moreTypes (first :: more))
        r'.names := .oneMoreType hderives hderives'
    exact .pass hr hnext nofun ⟨ts ++ us, by rw [hts, hus, List.append_assoc], hr', hcomma⟩
  · obtain ⟨rfl, rfl⟩ := hreads
    exact ⟨[], rfl, hr, .noTypes⟩

omit h in
theorem item_of_type {type : Ty} (hr : r.Ready)
    (htype : ∀ {r₁ : Reader}, r₁.Ready → Reads (Reader.readType scope fuel) r₁ type r' →
      Sees scope [] r₁ (.type type) r')
    (hreads : Reads (Reader.readType scope fuel) r.pastConvention type r') :
    Sees scope [] r (.item (r.convention?, type)) r' := by
  unfold Reader.pastConvention at hreads
  cases hconvention : r.convention? with
  | none =>
    rw [hconvention] at hreads
    obtain ⟨ts, hts, hr', hderives⟩ := htype hr hreads
    exact ⟨ts, hts, hr', .plain hderives⟩
  | some convention =>
    rw [hconvention] at hreads
    have hnext := r.next_of_convention hconvention
    obtain ⟨ts, hts, hr', hderives⟩ := htype (hr.past hnext nofun).2.2 hreads
    exact .pass hr hnext nofun ⟨ts, hts, hr', .passed hderives⟩

theorem items_succ {items : List Item} {trailingComma : Bool} (hr : r.Ready)
    (hreads : Reads (Reader.readItems scope (fuel + 1)) r (items, trailingComma) r') :
    Sees scope [] r (.list (items.map Item.listed) trailingComma) r' := by
  obtain ⟨type, r₁, htype, hrest⟩ := Reader.reads_readItems.1 hreads
  obtain ⟨ts, hts, hr₁, hderives⟩ := item_of_type hr h.type htype
  have hlisted : Item.listed ⟨r.convention?.map (·, r.next.span), type⟩ = (r.convention?, type) := by
    cases hconvention : r.convention? <;> rfl
  dsimp only at hrest
  split at hrest
  · rename_i hcomma
    obtain ⟨htokens, -, hpast⟩ := hr₁.past hcomma nofun
    split at hrest
    · obtain ⟨rfl, rfl, rfl⟩ := hrest
      refine ⟨ts ++ [.comma], by rw [hts, htokens]; simp, hpast, ?_⟩
      rw [List.map_singleton, hlisted, Reader.names_past]
      exact .trailing hderives
    · obtain ⟨rest, hitems, rfl⟩ := hrest
      obtain ⟨us, hus, hr', hderives'⟩ := h.items hpast hitems
      refine ⟨ts ++ .comma :: us, by rw [hts, htokens, hus]; simp, hr', ?_⟩
      rw [List.map_cons, hlisted]
      rw [Reader.names_past] at hderives'
      exact .cons hderives hderives'
  · obtain ⟨rfl, rfl, rfl⟩ := hrest
    refine ⟨ts, hts, hr₁, ?_⟩
    rw [List.map_singleton, hlisted]
    exact .single hderives

theorem parenthesized_succ (hr : r.Ready)
    (hreads : Reads (Reader.readParenthesized scope (fuel + 1)) r t r') :
    Sees scope [.openParen] r (.type t) r' := by
  obtain ⟨items, trailingComma, r₁, hcontent, hclose, hrest⟩ :=
    Reader.reads_readParenthesized.1 hreads
  obtain ⟨ts, hts, hr₁, hderives⟩ := h.content hr hcontent
  obtain ⟨hclosed, -, hpast⟩ := hr₁.past hclose nofun
  split at hrest
  · rename_i harrow
    obtain ⟨result, hresult, rfl⟩ := hrest
    obtain ⟨harrowed, -, hpast'⟩ := hpast.past harrow nofun
    obtain ⟨us, hus, hr', hderives'⟩ := h.type hpast' hresult
    rw [Reader.names_past, Reader.names_past] at hderives'
    refine ⟨ts ++ .closeParen :: .arrow :: us, by rw [hts, hclosed, harrowed, hus]; simp, hr', ?_⟩
    have hfunction := hderives.function hderives'
    rwa [List.map_map] at hfunction
  · obtain ⟨hnone, rfl, hcases⟩ := Reader.reads_groupOf.1 hrest
    refine ⟨ts ++ [.closeParen], by rw [hts, hclosed]; simp, hpast, ?_⟩
    rw [Reader.names_past]
    rcases hcases with ⟨i, rfl, rfl, rfl⟩ | ⟨hlength, rfl⟩
    · have hlisted : i.listed = (none, i.type) := by
        unfold Item.listed
        rw [hnone i List.mem_cons_self]
        rfl
      rw [List.map_singleton, hlisted] at hderives
      exact .group hderives
    · have hplain : ∀ i ∈ items.map Item.listed, i.1 = none := by
        intro i hi
        obtain ⟨item, hitem, rfl⟩ := List.mem_map.1 hi
        exact congrArg (Option.map (·.1)) (hnone item hitem)
      have htuple := hderives.tuple hplain (by simpa using hlength)
      rwa [List.map_map] at htuple

end Sound

/-- **What is read is derived.** -/
theorem sound (scope : List Name) : ∀ fuel, Sound scope fuel
  | 0 =>
    { type := fun _ h => absurd h Reader.not_reads_unexpected
      nominal := fun _ _ _ h => absurd h Reader.not_reads_unexpected
      moreTypes := fun hr h => by
        obtain ⟨rfl, rfl⟩ := reads_pure.1 h
        exact ⟨[], rfl, hr, .noTypes⟩
      parenthesized := fun _ h => absurd h Reader.not_reads_unexpected
      items := fun _ h => absurd h Reader.not_reads_unexpected }
  | fuel + 1 =>
    have h := sound scope fuel
    { type := h.type_succ
      nominal := h.nominal_succ
      moreTypes := h.moreTypes_succ
      parenthesized := h.parenthesized_succ
      items := h.items_succ }

end Notation
end TypeResolution
