/-
# Types that can be written

The notation has no text for some types: a name has to be an identifier, `any` and `_` are other
types already, and the scope has to tell parameters from nominal types. The types that have none of
these faults in any part can be written (`Ty.Expressible`), and all types that are read are among
them (`Notation.Derives.expressible`). A type that can be written stays so when names are interned,
since these keep the texts that they have.

Key definitions: `Ty.HasPart`, `Ty.Expressible`.
Key theorems: `Ty.expressible_iff`, `Ty.Expressible.mono`, `Notation.Derives.expressible`.
-/
import Mathlib.Data.List.Nodup
import Mathlib.Logic.Relation
import TypeResolution.Proofs.Notation.Grammar
import TypeResolution.Proofs.Notation.Scanning

open Relation (ReflTransGen)

namespace TypeResolution

open Notation (IsIdentifier variableBound)

variable {names names' : NameTable} {scope : List Name} {name : Name} {text : String} {t : Ty}

/-! ### Tables of names -/

theorem Notation.IsIdentifier.ne_empty (h : IsIdentifier text) : text ≠ "" := by
  obtain ⟨c, part, rfl, -, -⟩ := Notation.isIdentifier_iff.1 h
  intro hempty
  have hlist := congrArg String.toList hempty
  rw [String.toList_ofList] at hlist
  cases hlist

namespace NameTable

/-- A name that has a text is the name of its text. -/
theorem intern_resolve (h : names.resolve name ≠ "") :
    names.intern (names.resolve name) = (name, names) := by
  unfold resolve resolve? at *
  rcases htext : names.texts[name.index]? with _ | text
  · rw [htext] at h
    exact absurd rfl h
  · obtain ⟨hlt, hget⟩ := List.getElem?_eq_some_iff.1 htext
    refine intern_of_get?_eq_some ?_
    rw [Option.getD_some, get?, ← hget, Option.map_eq_some_iff]
    refine ⟨name.index, List.idxOf?_eq_some_iff.2 ⟨hlt, rfl, fun i hi => ?_⟩, rfl⟩
    exact fun heq => absurd ((List.Nodup.getElem_inj_iff names.nodup).1 heq) (Nat.ne_of_lt hi)

/-- Interning adds at the end. -/
theorem prefix_intern (names : NameTable) (text : String) :
    names.texts <+: (names.intern text).2.texts := by
  rcases h : names.get? text with _ | name
  · rw [(texts_intern_of_get?_eq_none h).1]
    exact List.prefix_append _ _
  · have hintern := intern_of_get?_eq_some h
    exact hintern.symm ▸ List.prefix_rfl

/-- A name that has a text keeps it. -/
theorem resolve_of_isPrefix (h : names.texts <+: names'.texts) (hname : names.resolve name ≠ "") :
    names'.resolve name = names.resolve name := by
  unfold resolve resolve? at *
  rcases htext : names.texts[name.index]? with _ | text
  · rw [htext] at hname
    exact absurd rfl hname
  · obtain ⟨hlt, -⟩ := List.getElem?_eq_some_iff.1 htext
    obtain ⟨more, hmore⟩ := h
    rw [← hmore, List.getElem?_append_left hlt, htext]

theorem resolve_of_intern_isPrefix (h : (names.intern text).2.texts <+: names'.texts)
    (htext : text ≠ "") : names'.resolve (names.intern text).1 = text := by
  have hresolve := resolve_intern names text
  rw [resolve_of_isPrefix h (by rwa [hresolve]), hresolve]

/-- The name stands for a type where a type is written: it is an identifier, and no word for another
type. -/
structure NamesType (names : NameTable) (name : Name) : Prop where
  isIdentifier : IsIdentifier (names.resolve name)
  ne_any : names.resolve name ≠ "any"
  ne_underscore : names.resolve name ≠ "_"

theorem NamesType.mono (h : names.NamesType name) (hnames : names.texts <+: names'.texts) :
    names'.NamesType name := by
  have hresolve := resolve_of_isPrefix hnames h.isIdentifier.ne_empty
  exact ⟨hresolve ▸ h.isIdentifier, hresolve ▸ h.ne_any, hresolve ▸ h.ne_underscore⟩

theorem NamesType.of_intern (h : (names.intern text).2.texts <+: names'.texts)
    (htext : IsIdentifier text) (hany : text ≠ "any") (hunderscore : text ≠ "_") :
    names'.NamesType (names.intern text).1 := by
  have hresolve := resolve_of_intern_isPrefix h htext.ne_empty
  exact ⟨hresolve.symm ▸ htext, hresolve.symm ▸ hany, hresolve.symm ▸ hunderscore⟩

end NameTable

/-! ### Parts of a type -/

namespace Ty

/-- A type is a part of itself, and the children of its parts are parts of it. -/
def HasPart (t u : Ty) : Prop := ReflTransGen (fun u c => c ∈ u.children) t u

/-- A type of this shape can be written if its children can. -/
def Shape.Expressible (names : NameTable) (scope : List Name) : Shape → Prop
  | .var v => v.index < variableBound
  | .param name => names.NamesType name ∧ name ∈ scope
  | .nominal name => names.NamesType name ∧ name ∉ scope
  | .existential traits => ∀ name ∈ traits.names, IsIdentifier (names.resolve name)
  | .function _ | .tuple | .literal _ | .error | .unresolved => True

/-- The type can be written where the names of the scope are parameters: in every part its names are
identifiers, parameters are in scope and nominal types are not, and variables have a number that is
read as one. -/
def Expressible (names : NameTable) (scope : List Name) (t : Ty) : Prop :=
  ∀ u, t.HasPart u → u.shape.Expressible names scope

theorem expressible_iff : t.Expressible names scope ↔
    t.shape.Expressible names scope ∧ ∀ c ∈ t.children, c.Expressible names scope := by
  constructor
  · exact fun h => ⟨h t .refl, fun c hc u hu => h u (.head hc hu)⟩
  · rintro ⟨ht, hchildren⟩ u hu
    rcases ReflTransGen.cases_head hu with rfl | ⟨c, hc, hu⟩
    · exact ht
    · exact hchildren c hc u hu

theorem Shape.Expressible.mono {shape : Shape} (h : shape.Expressible names scope)
    (hnames : names.texts <+: names'.texts) : shape.Expressible names' scope := by
  cases shape with
  | param name => exact ⟨h.1.mono hnames, h.2⟩
  | nominal name => exact ⟨h.1.mono hnames, h.2⟩
  | existential traits =>
    intro name hname
    have hidentifier : IsIdentifier (names.resolve name) := h name hname
    rwa [NameTable.resolve_of_isPrefix hnames hidentifier.ne_empty]
  | _ => exact h

theorem Expressible.mono (h : t.Expressible names scope) (hnames : names.texts <+: names'.texts) :
    t.Expressible names' scope := fun u hu => (h u hu).mono hnames

theorem expressible_leaf (ht : t.shape.Expressible names scope) (hchildren : t.children = []) :
    t.Expressible names scope :=
  expressible_iff.2 ⟨ht, by simp [hchildren]⟩

end Ty

/-! ### What is read can be written -/

namespace Notation

variable {ts : List Token} {phrase : Phrase}

/-- The token is one that a text is split into. -/
def Token.Legible : Token → Prop
  | .identifier text => IsIdentifier text
  | .variable n => n < variableBound
  | _ => True

theorem legible_of_scan {pos : Nat} {cs : List Char} {lexemes : List Lexeme}
    (h : Lexeme.scan pos cs = .ok lexemes) : ∀ token ∈ lexemes.map (·.token), token.Legible := by
  intro token htoken
  cases token with
  | identifier text => exact isIdentifier_of_scan h htoken
  | «variable» n => exact lt_variableBound_of_scan h htoken
  | _ => trivial

/-- The types of the phrase can be written, and its traits are identifiers. -/
def Phrase.Expressible (names : NameTable) (scope : List Name) : Phrase → Prop
  | .type t => t.Expressible names scope
  | .moreTypes ts => ∀ t ∈ ts, t.Expressible names scope
  | .moreTraits traits => ∀ name ∈ traits, IsIdentifier (names.resolve name)
  | .item i => i.2.Expressible names scope
  | .list items _ | .content items _ => ∀ i ∈ items, i.2.Expressible names scope

/-- Names are only ever added. -/
theorem Derives.isPrefix (h : Derives scope names ts phrase names') :
    names.texts <+: names'.texts := by
  induction h with
  | existential _ ih => exact (NameTable.prefix_intern _ _).trans ih
  | param _ _ _ => exact NameTable.prefix_intern _ _
  | nominal _ _ _ => exact NameTable.prefix_intern _ _
  | generic _ _ _ _ _ ih ih' => exact ((NameTable.prefix_intern _ _).trans ih).trans ih'
  | function _ _ ih ih' => exact ih.trans ih'
  | oneMoreType _ _ ih ih' => exact ih.trans ih'
  | oneMoreTrait _ ih => exact (NameTable.prefix_intern _ _).trans ih
  | cons _ _ ih ih' => exact ih.trans ih'
  | group _ ih => exact ih
  | tuple _ _ _ ih => exact ih
  | plain _ ih => exact ih
  | passed _ ih => exact ih
  | single _ ih => exact ih
  | trailing _ ih => exact ih
  | listed _ ih => exact ih
  | _ => exact List.prefix_rfl

/-- **What is read can be written.** -/
theorem Derives.expressible (h : Derives scope names ts phrase names')
    (hts : ∀ token ∈ ts, token.Legible) : phrase.Expressible names' scope := by
  induction h with
  | «variable» => exact Ty.expressible_leaf (hts _ List.mem_cons_self) rfl
  | literal => exact Ty.expressible_leaf trivial rfl
  | anything => exact Ty.expressible_leaf nofun rfl
  | @existential names names' text ts traits htraits ih =>
    simp only [List.forall_mem_cons] at hts
    refine Ty.expressible_leaf (fun name hname => ?_) rfl
    rcases List.mem_cons.1 (TraitSet.mem_ofList.1 hname) with rfl | hname
    · rw [NameTable.resolve_of_intern_isPrefix htraits.isPrefix hts.2.1.ne_empty]
      exact hts.2.1
    · exact ih hts.2.2 name hname
  | unresolved => exact Ty.expressible_leaf trivial rfl
  | error => exact Ty.expressible_leaf trivial rfl
  | param hany hunderscore hscope =>
    exact Ty.expressible_leaf
      ⟨.of_intern List.prefix_rfl (hts _ List.mem_cons_self) hany hunderscore, hscope⟩ rfl
  | nominal hany hunderscore hscope =>
    exact Ty.expressible_leaf
      ⟨.of_intern List.prefix_rfl (hts _ List.mem_cons_self) hany hunderscore, hscope⟩ rfl
  | generic hany hunderscore hscope hfirst hmore ih ih' =>
    simp only [List.forall_mem_append, List.forall_mem_cons, List.cons_append] at hts
    obtain ⟨htext, -, ⟨hts, hus⟩, -⟩ := hts
    refine Ty.expressible_iff.2
      ⟨⟨.of_intern (hfirst.isPrefix.trans hmore.isPrefix) htext hany hunderscore, hscope⟩, ?_⟩
    exact List.forall_mem_cons.2 ⟨(ih hts).mono hmore.isPrefix, ih' hus⟩
  | group _ ih =>
    simp only [List.forall_mem_append, List.forall_mem_cons, List.cons_append] at hts
    exact ih hts.2.1 _ List.mem_cons_self
  | tuple _ _ _ ih =>
    simp only [List.forall_mem_append, List.forall_mem_cons, List.cons_append] at hts
    exact Ty.expressible_iff.2 ⟨trivial, List.forall_mem_map.2 (ih hts.2.1)⟩
  | @function names names₁ names₂ ts us items trailingComma result _ hresult ih ih' =>
    simp only [List.forall_mem_append, List.forall_mem_cons, List.cons_append] at hts
    obtain ⟨-, hts, -, -, hus⟩ := hts
    have hparams : ∀ i ∈ items, i.2.Expressible names₂ scope :=
      fun i hi => (ih hts i hi).mono hresult.isPrefix
    refine Ty.expressible_iff.2 ⟨trivial, List.forall_mem_append.2 ⟨?_, ?_⟩⟩
    · rw [List.map_map]
      exact List.forall_mem_map.2 hparams
    · exact List.forall_mem_singleton.2 (ih' hus)
  | noTypes => exact nofun
  | oneMoreType _ hmore ih ih' =>
    simp only [List.forall_mem_append, List.forall_mem_cons, List.cons_append] at hts
    exact List.forall_mem_cons.2 ⟨(ih hts.2.1).mono hmore.isPrefix, ih' hts.2.2⟩
  | noTraits => exact nofun
  | oneMoreTrait htraits ih =>
    simp only [List.forall_mem_cons] at hts
    refine List.forall_mem_cons.2 ⟨?_, ih hts.2.2⟩
    rw [NameTable.resolve_of_intern_isPrefix htraits.isPrefix hts.2.1.ne_empty]
    exact hts.2.1
  | plain _ ih => exact ih hts
  | passed _ ih => exact ih (List.forall_mem_cons.1 hts).2
  | single _ ih => exact List.forall_mem_singleton.2 (ih hts)
  | trailing _ ih => exact List.forall_mem_singleton.2 (ih (List.forall_mem_append.1 hts).1)
  | cons _ hitems ih ih' =>
    simp only [List.forall_mem_append, List.forall_mem_cons] at hts
    exact List.forall_mem_cons.2 ⟨(ih hts.1).mono hitems.isPrefix, ih' hts.2.2⟩
  | nothing => exact nofun
  | listed _ ih => exact ih hts

end Notation
end TypeResolution
