/-
# Reading under other names

The handles of names depend on the order in which their texts came. Between two tables of names
there are renamings that take the handle of each text in the one to its handle in the other
(`NameTable.exists_matches`). What tokens stand for under the names of the one they stand for under
those of the other, up to such a renaming: words are compared with each other and with the generic
parameters, and this does not depend on handles (`Notation.Derives.follow`).

Reading adds names to both tables. The second table learns nothing that the first one does not know
in the end (`NameTable.Step`), so two readings of the same texts end with the same texts.

Key definitions: `NameTable.Matches`, `NameTable.Step`, `Notation.Phrase.rename`.
Key theorems: `NameTable.exists_matches`, `Notation.Derives.follow`, `Notation.readType_follow`.
-/
import TypeResolution.Proofs.Notation.Rereading
import TypeResolution.Proofs.Table.Renaming

open Function (Injective)

namespace TypeResolution

variable {names names' known known' : NameTable} {ρ : Name → Name} {text : String} {n m : Name}

namespace NameTable

/-- The renaming takes the name of a text to the name that the text has in the other table. -/
structure Matches (names known : NameTable) (ρ : Name → Name) : Prop where
  injective : Injective ρ
  same : ∀ text n m, names.Knows text n → known.Knows text m → ρ n = m

theorem Matches.mono (h : names'.Matches known' ρ) (hnames : names.texts <+: names'.texts)
    (hknown : known.texts <+: known'.texts) : names.Matches known ρ where
  injective := h.injective
  same text n m hn hm := h.same text n m (hn.mono hnames) (hm.mono hknown)

theorem index_lt_of_knows (h : names.Knows text n) : n.index < names.size := by
  obtain ⟨i, hi, rfl⟩ := Option.map_eq_some_iff.1 h
  exact (List.idxOf?_eq_some_iff.1 hi).1

/-- A text is that of one name. -/
theorem eq_of_resolve?_eq (hn : names.resolve? n = some text) (hm : names.resolve? m = some text) :
    n = m := by
  cases n
  cases m
  exact congrArg Name.mk
    ((List.getElem?_inj (List.getElem?_eq_some_iff.1 hn).1 names.nodup).1 (hn.trans hm.symm))

/-- The name that the text of a name has in the other table, or one that is in no table. -/
def transfer (names known : NameTable) (n : Name) : Name :=
  ((names.resolve? n).bind known.get?).getD ⟨n.index + known.size⟩

/-- **There are renamings from any table to any other.** -/
theorem exists_matches (names known : NameTable) : ∃ ρ, names.Matches known ρ := by
  refine ⟨transfer names known, fun n m heq => ?_, fun text n m hn hm => ?_⟩
  · unfold transfer at heq
    cases hn : (names.resolve? n).bind known.get? with
    | none =>
      cases hm : (names.resolve? m).bind known.get? with
      | none =>
        rw [hn, hm] at heq
        have hindex := Nat.add_right_cancel (Name.mk.inj heq)
        cases n
        cases m
        exact congrArg Name.mk hindex
      | some m' =>
        obtain ⟨text, -, hm'⟩ := Option.bind_eq_some_iff.1 hm
        have hlt := index_lt_of_knows hm'
        rw [hn, hm] at heq
        rw [← (show _ = m' from heq)] at hlt
        exact absurd hlt (Nat.not_lt.2 (Nat.le_add_left _ _))
    | some n' =>
      obtain ⟨text, hn, hn'⟩ := Option.bind_eq_some_iff.1 hn
      rw [hn, Option.bind_some, hn'] at heq
      cases hm : (names.resolve? m).bind known.get? with
      | none =>
        have hlt := index_lt_of_knows hn'
        rw [hm] at heq
        rw [show n' = _ from heq] at hlt
        exact absurd hlt (Nat.not_lt.2 (Nat.le_add_left _ _))
      | some m' =>
        obtain ⟨text', hm, hm'⟩ := Option.bind_eq_some_iff.1 hm
        rw [hm, Option.bind_some, hm'] at heq
        obtain rfl : n' = m' := heq
        have htext := (resolve?_of_get?_eq_some hn').symm.trans (resolve?_of_get?_eq_some hm')
        obtain rfl := Option.some.inj htext
        exact eq_of_resolve?_eq hn hm
  · unfold transfer
    rw [resolve?_of_get?_eq_some hn, Option.bind_some, hm]
    rfl

/-- Names are added to both tables, to the second one only what the first one knows then. -/
structure Step (names known names' known' : NameTable) : Prop where
  left : names.texts <+: names'.texts
  right : known.texts <+: known'.texts
  learnt : ∀ text ∈ known'.texts, text ∈ known.texts ∨ text ∈ names'.texts

namespace Step

theorem refl (names known : NameTable) : Step names known names known :=
  ⟨List.prefix_rfl, List.prefix_rfl, fun _ => .inl⟩

theorem trans {names'' known'' : NameTable} (h : Step names known names' known')
    (h' : Step names' known' names'' known'') : Step names known names'' known'' where
  left := h.left.trans h'.left
  right := h.right.trans h'.right
  learnt text htext := by
    rcases h'.learnt text htext with htext | htext
    · exact (h.learnt text htext).imp_right (h'.left.subset ·)
    · exact .inr htext

theorem before (h : Step names known names' known') (hρ : names'.Matches known' ρ) :
    names.Matches known ρ := hρ.mono h.left h.right

end Step

theorem exists_knows_iff : (∃ n, names.Knows text n) ↔ text ∈ names.texts := by
  unfold Knows get?
  rw [← Option.isSome_iff_exists, Option.isSome_map, List.isSome_idxOf?]

theorem mem_texts_intern {text' : String} :
    text' ∈ (names.intern text).2.texts ↔ text' ∈ names.texts ∨ text' = text := by
  cases h : names.get? text with
  | some n =>
    rw [intern_of_get?_eq_some h]
    exact ⟨.inl, fun h' => h'.elim id fun heq => heq ▸ exists_knows_iff.1 ⟨n, h⟩⟩
  | none => rw [(texts_intern_of_get?_eq_none h).1, List.mem_append, List.mem_singleton]

/-- Where the texts are the same, a name is known if the renamed one is. -/
theorem Matches.knows_iff (h : names.Matches known ρ)
    (htexts : ∀ text, text ∈ names.texts ↔ text ∈ known.texts) :
    known.Knows text (ρ n) ↔ names.Knows text n := by
  constructor
  · intro hknown
    obtain ⟨m, hm⟩ := exists_knows_iff.2 ((htexts text).2 (exists_knows_iff.1 ⟨_, hknown⟩))
    rwa [← h.injective (h.same text m _ hm hknown)]
  · intro hknows
    obtain ⟨m, hm⟩ := exists_knows_iff.2 ((htexts text).1 (exists_knows_iff.1 ⟨_, hknows⟩))
    rwa [h.same text n m hknows hm]

theorem step_intern (names known : NameTable) (text : String) :
    Step names known (names.intern text).2 (known.intern text).2 where
  left := names.prefix_intern text
  right := known.prefix_intern text
  learnt _ htext := (mem_texts_intern.1 htext).imp_right fun heq =>
    mem_texts_intern.2 (.inr heq)

theorem Matches.intern (h : (names.intern text).2.Matches (known.intern text).2 ρ) :
    ρ (names.intern text).1 = (known.intern text).1 :=
  h.same text _ _ (names.knows_intern text) (known.knows_intern text)

end NameTable

namespace Notation

open NameTable (Step)

/-- The item with new names. -/
def ListItem.rename (ρ : Name → Name) (i : ListItem) : ListItem := (i.1, i.2.rename ρ)

/-- The phrase with new names. -/
def Phrase.rename (ρ : Name → Name) : Phrase → Phrase
  | .type t => .type (t.rename ρ)
  | .moreTypes ts => .moreTypes (ts.map (Ty.rename ρ))
  | .moreTraits names => .moreTraits (names.map ρ)
  | .item i => .item (i.rename ρ)
  | .list items trailingComma => .list (items.map (ListItem.rename ρ)) trailingComma
  | .content items trailingComma => .content (items.map (ListItem.rename ρ)) trailingComma

variable {scope scope' : List Name} {ts : List Token} {phrase : Phrase}

/-- The tokens stand for the renamed phrase under other names, however these match in the end. -/
def Renamed (scope' : List Name) (names known : NameTable) (ts : List Token) (phrase : Phrase)
    (names' : NameTable) : Prop :=
  ∃ known', Step names known names' known' ∧
    ∀ ρ, names'.Matches known' ρ → Derives scope' known ts (phrase.rename ρ) known'

/-- A parameter in scope is one under other names. -/
theorem mem_scope_iff (hρ : Injective ρ) (hscope : scope.map ρ = scope') (hname : ρ n = m) :
    m ∈ scope' ↔ n ∈ scope := by
  rw [← hscope, ← hname, List.mem_map_of_injective hρ]

/-- **What tokens stand for under some names they stand for under others.** -/
theorem Derives.follow (h : Derives scope names ts phrase names') : ∀ {known : NameTable},
    (∀ ρ, names.Matches known ρ → scope.map ρ = scope') →
      Renamed scope' names known ts phrase names' := by
  -- Renamings that match the names at the end match those at each place before (`Step.before`), so
  -- the parts of a phrase are renamed by the renaming of the whole.
  induction h with
  | «variable» => exact fun _ => ⟨_, .refl _ _, fun ρ _ => .variable⟩
  | literal => exact fun _ => ⟨_, .refl _ _, fun ρ _ => .literal⟩
  | anything => exact fun _ => ⟨_, .refl _ _, fun ρ _ => .anything⟩
  | unresolved => exact fun _ => ⟨_, .refl _ _, fun ρ _ => .unresolved⟩
  | error => exact fun _ => ⟨_, .refl _ _, fun ρ _ => .error⟩
  | noTypes => exact fun _ => ⟨_, .refl _ _, fun ρ _ => .noTypes⟩
  | noTraits => exact fun _ => ⟨_, .refl _ _, fun ρ _ => .noTraits⟩
  | nothing => exact fun _ => ⟨_, .refl _ _, fun ρ _ => .nothing⟩
  | @existential names _ text ts traits _ ih =>
    intro known hscope
    have hstep := NameTable.step_intern names known text
    obtain ⟨known', hstep', hrest⟩ := ih fun ρ hρ => hscope ρ (hstep.before hρ)
    refine ⟨known', hstep.trans hstep', fun ρ hρ => ?_⟩
    have hderives := Derives.existential (hrest ρ hρ)
    rw [← (hstep'.before hρ).intern] at hderives
    show Derives _ _ _ (.type (.existential (TraitSet.rename ρ _))) _
    rw [TraitSet.rename_ofList]
    exact hderives
  | @param names text hany hplaceholder hmem =>
    intro known hscope
    have hstep := NameTable.step_intern names known text
    refine ⟨_, hstep, fun ρ hρ => ?_⟩
    have hiff := mem_scope_iff hρ.injective (hscope ρ (hstep.before hρ)) hρ.intern
    have hderives := Derives.param hany hplaceholder (hiff.2 hmem)
    rwa [← hρ.intern] at hderives
  | @nominal names text hany hplaceholder hmem =>
    intro known hscope
    have hstep := NameTable.step_intern names known text
    refine ⟨_, hstep, fun ρ hρ => ?_⟩
    have hiff := mem_scope_iff hρ.injective (hscope ρ (hstep.before hρ)) hρ.intern
    have hderives := Derives.nominal hany hplaceholder (mt hiff.1 hmem)
    rwa [← hρ.intern] at hderives
  | @generic names _ _ text ts us first more hany hplaceholder hmem _ _ ih ih' =>
    intro known hscope
    have hstep := NameTable.step_intern names known text
    obtain ⟨known₁, hstep₁, hfirst⟩ := ih fun ρ hρ => hscope ρ (hstep.before hρ)
    obtain ⟨known₂, hstep₂, hmore⟩ := ih' fun ρ hρ => hscope ρ ((hstep.trans hstep₁).before hρ)
    refine ⟨known₂, (hstep.trans hstep₁).trans hstep₂, fun ρ hρ => ?_⟩
    have hρ₁ := hstep₂.before hρ
    have hname := (hstep₁.before hρ₁).intern
    have hiff := mem_scope_iff hρ.injective (hscope ρ ((hstep.trans hstep₁).before hρ₁)) hname
    have hderives :=
      Derives.generic hany hplaceholder (mt hiff.1 hmem) (hfirst ρ hρ₁) (hmore ρ hρ)
    rw [← hname] at hderives
    show Derives _ _ _ (.type (Ty.rename ρ _)) _
    rw [Ty.rename_nominal]
    exact hderives
  | group _ ih =>
    intro known hscope
    obtain ⟨known', hstep, hcontent⟩ := ih hscope
    exact ⟨known', hstep, fun ρ hρ => .group (hcontent ρ hρ)⟩
  | @tuple _ _ ts items _ _ hplain hlength ih =>
    intro known hscope
    obtain ⟨known', hstep, hcontent⟩ := ih hscope
    refine ⟨known', hstep, fun ρ hρ => ?_⟩
    have hderives := Derives.tuple (hcontent ρ hρ) (List.forall_mem_map.2 hplain)
      (by rwa [List.length_map])
    show Derives _ _ _ (.type (Ty.rename ρ _)) _
    rw [Ty.rename_tuple, List.map_map]
    rw [List.map_map] at hderives
    exact hderives
  | @function _ _ _ ts us items _ result _ _ ih ih' =>
    intro known hscope
    obtain ⟨known₁, hstep₁, hcontent⟩ := ih hscope
    obtain ⟨known₂, hstep₂, hresult⟩ := ih' fun ρ hρ => hscope ρ (hstep₁.before hρ)
    refine ⟨known₂, hstep₁.trans hstep₂, fun ρ hρ => ?_⟩
    have hderives := Derives.function (hcontent ρ (hstep₂.before hρ)) (hresult ρ hρ)
    show Derives _ _ _ (.type (Ty.rename ρ _)) _
    rw [Ty.rename_function, List.map_map]
    rw [List.map_map] at hderives
    exact hderives
  | oneMoreType _ _ ih ih' =>
    intro known hscope
    obtain ⟨known₁, hstep₁, htype⟩ := ih hscope
    obtain ⟨known₂, hstep₂, hmore⟩ := ih' fun ρ hρ => hscope ρ (hstep₁.before hρ)
    exact ⟨known₂, hstep₁.trans hstep₂, fun ρ hρ =>
      .oneMoreType (htype ρ (hstep₂.before hρ)) (hmore ρ hρ)⟩
  | @oneMoreTrait names _ text ts traits _ ih =>
    intro known hscope
    have hstep := NameTable.step_intern names known text
    obtain ⟨known', hstep', hrest⟩ := ih fun ρ hρ => hscope ρ (hstep.before hρ)
    refine ⟨known', hstep.trans hstep', fun ρ hρ => ?_⟩
    have hderives := Derives.oneMoreTrait (hrest ρ hρ)
    rw [← (hstep'.before hρ).intern] at hderives
    exact hderives
  | plain _ ih =>
    intro known hscope
    obtain ⟨known', hstep, htype⟩ := ih hscope
    exact ⟨known', hstep, fun ρ hρ => .plain (htype ρ hρ)⟩
  | passed _ ih =>
    intro known hscope
    obtain ⟨known', hstep, htype⟩ := ih hscope
    exact ⟨known', hstep, fun ρ hρ => .passed (htype ρ hρ)⟩
  | single _ ih =>
    intro known hscope
    obtain ⟨known', hstep, hitem⟩ := ih hscope
    exact ⟨known', hstep, fun ρ hρ => .single (hitem ρ hρ)⟩
  | trailing _ ih =>
    intro known hscope
    obtain ⟨known', hstep, hitem⟩ := ih hscope
    exact ⟨known', hstep, fun ρ hρ => .trailing (hitem ρ hρ)⟩
  | cons _ _ ih ih' =>
    intro known hscope
    obtain ⟨known₁, hstep₁, hitem⟩ := ih hscope
    obtain ⟨known₂, hstep₂, hlist⟩ := ih' fun ρ hρ => hscope ρ (hstep₁.before hρ)
    exact ⟨known₂, hstep₁.trans hstep₂, fun ρ hρ =>
      .cons (hitem ρ (hstep₂.before hρ)) (hlist ρ hρ)⟩
  | listed _ ih =>
    intro known hscope
    obtain ⟨known', hstep, hlist⟩ := ih hscope
    exact ⟨known', hstep, fun ρ hρ => .listed (hlist ρ hρ)⟩

/-- **A text that is read under some names is read under others**, as the renamed type. -/
theorem readType_follow {t : Ty} (h : readType names scope text = (.ok t, names'))
    (hscope : ∀ ρ, names.Matches known ρ → scope.map ρ = scope') :
    ∃ known', Step names known names' known' ∧ ∀ ρ, names'.Matches known' ρ →
      readType known scope' text = (.ok (t.rename ρ), known') := by
  rcases htext : tokenize text with e | lexemes
  · unfold readType at h
    rw [htext] at h
    cases h
  · obtain ⟨ts, hts, hend⟩ := tokens_of_scan htext
    have hderives := (readType_of_tokens htext hts hend).1 h
    obtain ⟨known', hstep, hrenamed⟩ := hderives.follow hscope
    exact ⟨known', hstep, fun ρ hρ => (readType_of_tokens htext hts hend).2 (hrenamed ρ hρ)⟩

end Notation
end TypeResolution
