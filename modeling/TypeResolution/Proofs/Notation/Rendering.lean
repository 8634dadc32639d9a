/-
# Reading what was rendered

The text of a type is read as the type, in any scope in which the type can be written, as long as
nothing of it was cut off (`Notation.readType_render`). It is a text of the type by the rules of the
grammar, one for each way in which types are built (`Notation.Spells`): the names are in the table
already, so none is added.

Key definitions: `Notation.Written`, `Notation.Spells`.
Key theorems: `Notation.spells_renderLevels`, `Notation.readType_render`.
-/
import TypeResolution.Proofs.Notation.Expressible
import TypeResolution.Proofs.Notation.Parsing
import TypeResolution.Proofs.Ty.Substitution
import TypeResolution.Ty.Display

namespace TypeResolution

/-! ### Sets of traits -/

namespace TraitSet

theorem place_of_forall_lt {name : Name} : ∀ {names : List Name}, (∀ m ∈ names, m < name) →
    place name names = names ++ [name]
  | [], _ => rfl
  | m :: rest, h => by
    obtain ⟨hm, hrest⟩ := List.forall_mem_cons.1 h
    have hlt : m.index < name.index := hm
    have hnot : ¬ name < m := Nat.lt_asymm hlt
    have hne : name ≠ m := by
      rintro rfl
      exact Nat.lt_irrefl _ hlt
    rw [place, if_neg hnot, if_neg hne, place_of_forall_lt hrest, List.cons_append]

theorem names_foldl_insert : ∀ {names : List Name} {s : TraitSet},
    (s.names ++ names).Pairwise (· < ·) → (names.foldl insert s).names = s.names ++ names
  | [], s, _ => (List.append_nil _).symm
  | name :: names, s, h => by
    have hplace : (s.insert name).names = s.names ++ [name] :=
      place_of_forall_lt fun m hm =>
        (List.pairwise_append.1 h).2.2 m hm name List.mem_cons_self
    rw [List.append_cons, ← hplace] at h ⊢
    exact names_foldl_insert h

/-- A set is the set of the traits that it lists. -/
theorem ofList_names (s : TraitSet) : ofList s.names = s := by
  have hnames : (ofList s.names).names = s.names := names_foldl_insert s.ascending
  obtain ⟨names, hascending⟩ := s
  unfold ofList at *
  rcases hset : List.foldl insert empty names with ⟨names', hascending'⟩
  rw [hset] at hnames
  cases hnames
  rfl

end TraitSet

namespace Notation

variable {scope : List Name} {names : NameTable} {ts us : List Token} {text text' keyword : String}
variable {t : Ty}

/-! ### Texts and their tokens -/

/-- The text is split into the tokens, also before characters that do not go on with the last of
them. -/
structure Written (text : String) (ts : List Token) : Prop where
  scans : ∀ {rest us}, Breaks rest → Scans rest us → Scans (text.toList ++ rest) (ts ++ us)

theorem Written.tokenize (h : Written text ts) :
    ∃ lexemes, tokenize text = .ok lexemes ∧ lexemes.map (·.token) = ts ++ [.endOfInput] := by
  have hscan : Scans (text.toList ++ []) (ts ++ [.endOfInput]) := h.scans nofun scans_nil
  rw [List.append_nil] at hscan
  exact hscan 0

theorem written_identifier (h : IsIdentifier text) : Written text [.identifier text] := by
  obtain ⟨c, part, rfl, hc, hpart⟩ := isIdentifier_iff.1 h
  refine ⟨fun hrest hscan => ?_⟩
  rw [String.toList_ofList]
  exact hscan.identifier hrest hc hpart

theorem written_var {v : TyVar} (h : v.index < variableBound) :
    Written v.render [.variable v.index] := by
  refine ⟨fun hrest hscan => ?_⟩
  have hrender : v.render = "?" ++ v.index.repr := rfl
  rw [hrender, String.toList_append]
  exact hscan.variable hrest h

theorem written_exclamation : Written "!" [.exclamation] :=
  ⟨fun _ hscan => hscan.mark rfl fun _ => rfl⟩

/-- A word before a text. -/
theorem Written.before (h : Written text ts) (hkeyword : IsIdentifier keyword) :
    Written (keyword ++ " " ++ text) (.identifier keyword :: ts) := by
  refine ⟨fun hrest hscan => ?_⟩
  simp only [String.toList_append, List.append_assoc]
  exact (written_identifier hkeyword).scans (breaks_cons (by decide +kernel))
    ((h.scans hrest hscan).blank rfl)

theorem Written.hash (h : Written text ts) : Written ("#" ++ text) (.hash :: ts) := by
  refine ⟨fun hrest hscan => ?_⟩
  rw [String.toList_append]
  exact (h.scans hrest hscan).mark rfl fun _ => rfl

theorem Written.comma (h : Written text ts) (h' : Written text' us) :
    Written (text ++ ", " ++ text') (ts ++ .comma :: us) := by
  refine ⟨fun hrest hscan => ?_⟩
  simp only [String.toList_append, List.append_assoc]
  exact h.scans (breaks_cons (by decide +kernel))
    (((h'.scans hrest hscan).blank rfl).mark rfl fun _ => rfl)

theorem Written.ampersand (h : Written text ts) (h' : Written text' us) :
    Written (text ++ " & " ++ text') (ts ++ .ampersand :: us) := by
  refine ⟨fun hrest hscan => ?_⟩
  simp only [String.toList_append, List.append_assoc]
  exact h.scans (breaks_cons (by decide +kernel))
    ((((h'.scans hrest hscan).blank rfl).mark rfl fun _ => rfl).blank rfl)

theorem Written.trailingComma (h : Written text ts) : Written (text ++ ",") (ts ++ [.comma]) := by
  refine ⟨fun hrest hscan => ?_⟩
  simp only [String.toList_append, List.append_assoc]
  exact h.scans (breaks_cons (by decide +kernel)) (hscan.mark rfl fun _ => rfl)

theorem Written.parenthesized (h : Written text ts) :
    Written ("(" ++ text ++ ")") (.openParen :: ts ++ [.closeParen]) := by
  refine ⟨fun hrest hscan => ?_⟩
  simp only [String.toList_append, List.append_assoc, List.cons_append]
  exact (h.scans (breaks_cons (by decide +kernel)) (hscan.mark rfl fun _ => rfl)).mark rfl
    fun _ => rfl

theorem Written.arguments (h : Written text ts) (hname : IsIdentifier text') :
    Written (text' ++ "<" ++ text ++ ">")
      (.identifier text' :: .lessThan :: ts ++ [.greaterThan]) := by
  refine ⟨fun hrest hscan => ?_⟩
  simp only [String.toList_append, List.append_assoc, List.cons_append]
  have hclosed := h.scans (breaks_cons (by decide +kernel))
    (hscan.mark (c := '>') rfl fun _ => rfl)
  exact (written_identifier hname).scans (breaks_cons (by decide +kernel))
    (hclosed.mark rfl fun _ => rfl)

theorem Written.function (h : Written text ts) (h' : Written text' us) :
    Written ("(" ++ text ++ ") -> " ++ text')
      (.openParen :: ts ++ .closeParen :: .arrow :: us) := by
  refine ⟨fun hrest hscan => ?_⟩
  simp only [String.toList_append, List.append_assoc, List.cons_append]
  have harrow := ((h'.scans hrest hscan).blank (c := ' ') rfl).arrow.blank (c := ' ') rfl
  exact (h.scans (breaks_cons (by decide +kernel)) (harrow.mark rfl fun _ => rfl)).mark rfl
    fun _ => rfl

/-! ### Texts and what they stand for -/

/-- The text has tokens that stand for the phrase, and adds no name. -/
def Spells (scope : List Name) (names : NameTable) (text : String) (phrase : Phrase) : Prop :=
  ∃ ts, Written text ts ∧ Derives scope names ts phrase names

/-- A text of a type is read as the type. -/
theorem Spells.readType (h : Spells scope names text (.type t)) :
    readType names scope text = (.ok t, names) := by
  obtain ⟨ts, hwritten, hderives⟩ := h
  obtain ⟨lexemes, htext, hts⟩ := hwritten.tokenize
  obtain ⟨us, hus, hend⟩ := tokens_of_scan htext
  obtain rfl := (List.append_inj' (hus.symm.trans hts) rfl).1
  exact (readType_of_tokens htext hts hend).2 hderives

theorem isIdentifier_keyword (c : Convention) : IsIdentifier c.keyword := by
  cases c <;> decide +kernel

theorem spells_keyword (kind : LiteralKind) :
    Spells scope names ("#" ++ kind.keyword) (.type (.literal kind)) := by
  have hkeyword : IsIdentifier kind.keyword := by cases kind <;> decide +kernel
  exact ⟨_, (written_identifier hkeyword).hash, .literal⟩

theorem spells_param {name : Name} (h : names.NamesType name) (hscope : name ∈ scope) :
    Spells scope names (names.resolve name) (.type (.param name)) := by
  have hintern := NameTable.intern_resolve h.isIdentifier.ne_empty
  have hderives := @Derives.param scope names _ h.ne_any h.ne_underscore (by rwa [hintern])
  rw [hintern] at hderives
  exact ⟨_, written_identifier h.isIdentifier, hderives⟩

theorem spells_nominal {name : Name} (h : names.NamesType name) (hscope : name ∉ scope) :
    Spells scope names (names.resolve name) (.type (.nominal name [])) := by
  have hintern := NameTable.intern_resolve h.isIdentifier.ne_empty
  have hderives := @Derives.nominal scope names _ h.ne_any h.ne_underscore (by rwa [hintern])
  rw [hintern] at hderives
  exact ⟨_, written_identifier h.isIdentifier, hderives⟩

/-- The traits of an existential, the first of which follows the word. -/
theorem exists_written_traits (more : List Name) : ∀ first : Name,
    (∀ name ∈ first :: more, IsIdentifier (names.resolve name)) →
    ∃ ts, Written (" & ".intercalate ((first :: more).map names.resolve))
        (.identifier (names.resolve first) :: ts) ∧
      Derives scope names ts (.moreTraits more) names := by
  induction more with
  | nil =>
    intro first h
    exact ⟨[], written_identifier (h first List.mem_cons_self), .noTraits⟩
  | cons second more ih =>
    intro first h
    obtain ⟨hfirst, hmore⟩ := List.forall_mem_cons.1 h
    obtain ⟨ts, hwritten, hderives⟩ := ih second hmore
    have hintern := NameTable.intern_resolve (hmore second List.mem_cons_self).ne_empty
    have hsecond := @Derives.oneMoreTrait scope names names (names.resolve second) ts more
      (by rwa [hintern])
    rw [hintern] at hsecond
    refine ⟨_, ?_, hsecond⟩
    simp only [List.map_cons, String.intercalate_cons_cons] at hwritten ⊢
    exact (written_identifier hfirst).ampersand hwritten

theorem spells_existential {traits : TraitSet}
    (h : ∀ name ∈ traits.names, IsIdentifier (names.resolve name)) :
    Spells scope names (if traits.names.isEmpty then "any" else "any " ++ traits.render names)
      (.type (.existential traits)) := by
  have hany : IsIdentifier "any" := by decide +kernel
  rcases hnames : traits.names with _ | ⟨first, more⟩
  · have htraits : traits = .empty := by rw [← traits.ofList_names, hnames]; rfl
    rw [htraits]
    exact ⟨_, written_identifier hany, .anything⟩
  · rw [hnames] at h
    obtain ⟨ts, hwritten, hderives⟩ := @exists_written_traits scope names more first h
    have hintern := NameTable.intern_resolve (h first List.mem_cons_self).ne_empty
    have hexistential := @Derives.existential scope names names (names.resolve first) ts more
      (by rwa [hintern])
    rw [hintern, ← hnames, TraitSet.ofList_names] at hexistential
    refine ⟨_, ?_, hexistential⟩
    unfold TraitSet.render
    rw [hnames]
    exact hwritten.before hany

/-! ### Lists -/

/-- The types between angle brackets. -/
theorem exists_written_types {render : Ty → String} (more : List Ty) : ∀ first : Ty,
    (∀ t ∈ first :: more, Spells scope names (render t) (.type t)) →
    ∃ ts us, Written (", ".intercalate ((first :: more).map render)) (ts ++ us) ∧
      Derives scope names ts (.type first) names ∧
      Derives scope names us (.moreTypes more) names := by
  induction more with
  | nil =>
    intro first h
    obtain ⟨ts, hwritten, hderives⟩ := h first List.mem_cons_self
    refine ⟨ts, [], ?_, hderives, .noTypes⟩
    rw [List.append_nil]
    exact hwritten
  | cons second more ih =>
    intro first h
    obtain ⟨hfirst, hmore⟩ := List.forall_mem_cons.1 h
    obtain ⟨ts, hwritten, hderives⟩ := hfirst
    obtain ⟨us, vs, hwritten', hsecond, hrest⟩ := ih second hmore
    refine ⟨ts, _, ?_, hderives, .oneMoreType hsecond hrest⟩
    simp only [List.map_cons, String.intercalate_cons_cons] at hwritten' ⊢
    exact hwritten.comma hwritten'

theorem spells_generic {render : Ty → String} {name : Name} {first : Ty} {more : List Ty}
    (h : names.NamesType name) (hscope : name ∉ scope)
    (hargs : ∀ t ∈ first :: more, Spells scope names (render t) (.type t)) :
    Spells scope names
      (names.resolve name ++ "<" ++ ", ".intercalate ((first :: more).map render) ++ ">")
      (.type (.nominal name (first :: more))) := by
  obtain ⟨ts, us, hwritten, hfirst, hmore⟩ := exists_written_types more first hargs
  have hintern := NameTable.intern_resolve h.isIdentifier.ne_empty
  have hderives := @Derives.generic scope names names names _ ts us first more
    h.ne_any h.ne_underscore (by rwa [hintern]) (by rwa [hintern]) hmore
  rw [hintern] at hderives
  refine ⟨_, ?_, hderives⟩
  have harguments := hwritten.arguments h.isIdentifier
  simpa only [List.cons_append, List.append_assoc] using harguments

variable {α : Type} {render : α → String}

theorem spells_list (item : α → ListItem) (more : List α) : ∀ first : α,
    (∀ x ∈ first :: more, Spells scope names (render x) (.item (item x))) →
    Spells scope names (", ".intercalate ((first :: more).map render))
      (.list ((first :: more).map item) false) := by
  induction more with
  | nil =>
    intro first h
    obtain ⟨ts, hwritten, hderives⟩ := h first List.mem_cons_self
    exact ⟨ts, hwritten, .single hderives⟩
  | cons second more ih =>
    intro first h
    obtain ⟨hfirst, hmore⟩ := List.forall_mem_cons.1 h
    obtain ⟨ts, hwritten, hderives⟩ := hfirst
    obtain ⟨us, hwritten', hlist⟩ := ih second hmore
    refine ⟨_, ?_, .cons hderives hlist⟩
    simp only [List.map_cons, String.intercalate_cons_cons] at hwritten' ⊢
    exact hwritten.comma hwritten'

/-- What stands between parentheses. -/
theorem spells_content (item : α → ListItem) {xs : List α}
    (h : ∀ x ∈ xs, Spells scope names (render x) (.item (item x))) :
    Spells scope names (", ".intercalate (xs.map render)) (.content (xs.map item) false) := by
  rcases xs with _ | ⟨first, more⟩
  · exact ⟨[], ⟨fun _ hscan => hscan⟩, .nothing⟩
  · obtain ⟨ts, hwritten, hlist⟩ := spells_list item more first h
    exact ⟨ts, hwritten, .listed hlist⟩

theorem Spells.plain (h : Spells scope names text (.type t)) :
    Spells scope names text (.item (none, t)) := by
  obtain ⟨ts, hwritten, hderives⟩ := h
  exact ⟨ts, hwritten, .plain hderives⟩

/-- The item that a parameter is written as. -/
def ListItem.ofParameter (p : Parameter) : ListItem :=
  (if p.1 = .letting then none else some p.1, p.2)

theorem parameter_ofParameter (p : Parameter) : (ListItem.ofParameter p).parameter = p := by
  obtain ⟨convention, t⟩ := p
  cases convention <;> rfl

theorem Spells.parameter {convention : Convention} (h : Spells scope names text (.type t)) :
    Spells scope names (Ty.renderParameter convention text)
      (.item (.ofParameter (convention, t))) := by
  unfold Ty.renderParameter ListItem.ofParameter
  by_cases hletting : convention = .letting
  · simp only [hletting, if_true]
    exact h.plain
  · simp only [hletting, if_false]
    obtain ⟨ts, hwritten, hderives⟩ := h
    exact ⟨_, hwritten.before (isIdentifier_keyword convention), .passed hderives⟩

/-! ### Types -/

theorem spells_tuple {render : Ty → String} {elements : List Ty}
    (h : ∀ e ∈ elements, Spells scope names (render e) (.type e)) (hone : elements.length ≠ 1) :
    Spells scope names ("(" ++ ", ".intercalate (elements.map render) ++ ")")
      (.type (.tuple elements)) := by
  obtain ⟨ts, hwritten, hcontent⟩ :=
    spells_content (fun e => (none, e)) fun e he => (h e he).plain
  have hderives := hcontent.tuple (by simp) (by simp [hone])
  have hitems : (elements.map fun e => ((none, e) : ListItem)).map (·.2) = elements := by
    rw [List.map_map]
    exact List.map_id elements
  rw [hitems] at hderives
  exact ⟨_, hwritten.parenthesized, hderives⟩

/-- A tuple of one element has a comma after it. -/
theorem spells_tuple_singleton {element : Ty} (h : Spells scope names text (.type element)) :
    Spells scope names ("(" ++ text ++ ",)") (.type (.tuple [element])) := by
  obtain ⟨ts, hwritten, hderives⟩ := h
  have htext : "(" ++ text ++ ",)" = "(" ++ (text ++ ",") ++ ")" := by
    simp only [String.append_assoc]
    rfl
  rw [htext]
  have hcontent : Derives scope names (ts ++ [.comma]) (.content [(none, element)] true) names :=
    .listed (.trailing (.plain hderives))
  exact ⟨_, hwritten.trailingComma.parenthesized, hcontent.tuple (by simp) fun _ => rfl⟩

theorem spells_function {render : Ty → String} {params : List Parameter} {result : Ty}
    (hparams : ∀ p ∈ params, Spells scope names (render p.2) (.type p.2))
    (hresult : Spells scope names (render result) (.type result)) :
    Spells scope names
      ("(" ++ ", ".intercalate (params.map fun p => Ty.renderParameter p.1 (render p.2)) ++ ") -> "
        ++ render result)
      (.type (.function params result)) := by
  obtain ⟨ts, hwritten, hcontent⟩ :=
    spells_content ListItem.ofParameter fun p hp => (hparams p hp).parameter
  obtain ⟨us, hwritten', hderives⟩ := hresult
  have hfunction := hcontent.function hderives
  have hitems : ListItem.parameter ∘ ListItem.ofParameter = id := funext parameter_ofParameter
  rw [List.map_map, hitems, List.map_id] at hfunction
  exact ⟨_, hwritten.function hwritten', hfunction⟩

theorem exists_levels {c : Ty} {levels : Nat} (hlevels : t.depth ≤ levels) (hc : c ∈ t.children) :
    ∃ k, levels = k + 1 ∧ c.depth ≤ k := by
  have hdepth := Ty.depth_lt_of_mem_children hc
  exact ⟨levels - 1, by omega, by omega⟩

/-- **The text of a type** is one of the type, if no level is cut off. -/
theorem spells_renderLevels {levels : Nat} (hlevels : t.depth ≤ levels)
    (h : t.Expressible names scope) :
    Spells scope names (t.renderLevels names (levels + 1)) (.type t) := by
  induction t generalizing levels with
  | var v => exact ⟨_, written_var (h _ .refl), .variable⟩
  | param name =>
    obtain ⟨hname, hscope⟩ := h _ .refl
    exact spells_param hname hscope
  | nominal name args ih =>
    obtain ⟨⟨hname, hscope⟩, hargs⟩ := Ty.expressible_iff.1 h
    have hspells : ∀ a ∈ args, Spells scope names (a.renderLevels names levels) (.type a) := by
      intro a ha
      obtain ⟨k, rfl, hk⟩ := exists_levels hlevels ha
      exact ih a ha hk (hargs a ha)
    rcases args with _ | ⟨first, more⟩
    · exact spells_nominal hname hscope
    · exact spells_generic hname hscope hspells
  | function params result ihparams ihresult =>
    obtain ⟨-, hchildren⟩ := Ty.expressible_iff.1 h
    refine spells_function (fun p hp => ?_) ?_
    · have hmem : p.2 ∈ (Ty.function params result).children :=
        List.mem_append_left _ (List.mem_map_of_mem hp)
      obtain ⟨k, rfl, hk⟩ := exists_levels hlevels hmem
      exact ihparams p hp hk (hchildren _ hmem)
    · have hmem : result ∈ (Ty.function params result).children :=
        List.mem_append_right _ List.mem_cons_self
      obtain ⟨k, rfl, hk⟩ := exists_levels hlevels hmem
      exact ihresult hk (hchildren _ hmem)
  | tuple elements ih =>
    obtain ⟨-, helements⟩ := Ty.expressible_iff.1 h
    have hspells : ∀ e ∈ elements, Spells scope names (e.renderLevels names levels) (.type e) := by
      intro e he
      obtain ⟨k, rfl, hk⟩ := exists_levels hlevels he
      exact ih e he hk (helements e he)
    rcases elements with _ | ⟨first, _ | ⟨second, more⟩⟩
    · exact spells_tuple hspells nofun
    · exact spells_tuple_singleton (hspells first List.mem_cons_self)
    · exact spells_tuple hspells (by simp)
  | existential traits => exact spells_existential (h _ .refl)
  | literal kind => exact spells_keyword kind
  | error => exact ⟨_, written_exclamation, .error⟩
  | unresolved =>
    have hunderscore : IsIdentifier "_" := by decide +kernel
    exact ⟨_, written_identifier hunderscore, .unresolved⟩

/-- A type that was read can be written with the names that there are then. -/
theorem expressible_of_readType {names' : NameTable}
    (h : readType names scope text = (.ok t, names')) : t.Expressible names' scope := by
  rcases htext : tokenize text with e | lexemes
  · unfold readType at h
    rw [htext] at h
    cases h
  · obtain ⟨ts, hts, hend⟩ := tokens_of_scan htext
    have hlegible := legible_of_scan htext
    rw [hts] at hlegible
    exact ((readType_of_tokens htext hts hend).1 h).expressible
      fun token htoken => hlegible token (List.mem_append_left _ htoken)

/-- **Reading undoes rendering.** A type of at most 20 levels below the first, which can be written
in a scope, is read in that scope from its text, and no name is added. What was read from any text
can be written: if it is no deeper, its own text is read as the same type. -/
theorem readType_render (names : NameTable) (scope : List Name) :
    (∀ t : Ty, t.depth ≤ 20 → t.Expressible names scope →
      readType names scope (t.render names) = (.ok t, names)) ∧
    ∀ text t names', readType names scope text = (.ok t, names') → t.depth ≤ 20 →
      readType names' scope (t.render names') = (.ok t, names') :=
  ⟨fun _ hdepth h => (spells_renderLevels hdepth h).readType, fun _ _ _ hread hdepth =>
    (spells_renderLevels hdepth (expressible_of_readType hread)).readType⟩

/-- A type whose name is also a word for a convention, before a tuple of one element; and a text
with blanks and parentheses that are not rendered. -/
theorem readType_render_set :
    let names : NameTable := ⟨["set", "T"], by decide⟩
    let set : Ty := .nominal ⟨0⟩ []
    let t : Ty := .function [(.inout, set)] (.tuple [.param ⟨1⟩])
    readType names [⟨1⟩] "(inout set) -> (T,)" = (.ok t, names) ∧
      ∃ names', readType names [⟨1⟩] "( (set) , )" = (.ok (.tuple [set]), names') ∧
        readType names' [⟨1⟩] ((Ty.tuple [set]).render names') = (.ok (.tuple [set]), names') := by
  intro names set t
  obtain ⟨hrender, hread⟩ := readType_render names [⟨1⟩]
  constructor
  · have hset : set.Expressible names [⟨1⟩] :=
      Ty.expressible_leaf ⟨⟨by decide +kernel, by decide, by decide⟩, by decide⟩ rfl
    have hparam : (Ty.param ⟨1⟩).Expressible names [⟨1⟩] :=
      Ty.expressible_leaf ⟨⟨by decide +kernel, by decide, by decide⟩, by decide⟩ rfl
    have htuple : (Ty.tuple [.param ⟨1⟩]).Expressible names [⟨1⟩] :=
      Ty.expressible_iff.2 ⟨trivial, List.forall_mem_singleton.2 hparam⟩
    have ht : t.Expressible names [⟨1⟩] :=
      Ty.expressible_iff.2 ⟨trivial, List.forall_mem_cons.2 ⟨hset, List.forall_mem_singleton.2 htuple⟩⟩
    have htext : t.render names = "(inout set) -> (T,)" := by decide +kernel
    rw [← htext]
    exact hrender t (by decide) ht
  · obtain ⟨names', htext⟩ : ∃ names', readType names [⟨1⟩] "( (set) , )" =
        (.ok (.tuple [set]), names') := exists_names_of_readType (by decide +kernel)
    exact ⟨names', htext, hread _ _ _ htext (by decide)⟩

end Notation
end TypeResolution
