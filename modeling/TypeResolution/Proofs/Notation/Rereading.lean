/-
# Reading again

Names keep the handles that they have when others are interned. So a text that has been read as a
type is read as the same type at any later time, and then it adds no names
(`Notation.readType_again`). What a text means can therefore be said with the names at the end.

Key definitions: `NameTable.Knows`, `NameTable.KnowsAll`.
Key theorems: `NameTable.knows_of_internAll`, `Notation.Derives.again`, `Notation.readType_again`.
-/
import TypeResolution.Proofs.Notation.Expressible
import TypeResolution.Proofs.Notation.Parsing

namespace TypeResolution

variable {names names' final : NameTable} {text : String} {name : Name}

namespace NameTable

/-- The text has been interned as the name. -/
def Knows (names : NameTable) (text : String) (name : Name) : Prop := names.get? text = some name

/-- The texts have been interned as the names, one by one. -/
abbrev KnowsAll (names : NameTable) : List String → List Name → Prop := List.Forall₂ names.Knows

theorem knows_intern (names : NameTable) (text : String) :
    (names.intern text).2.Knows text (names.intern text).1 := names.get?_intern text

/-- Names are kept. -/
theorem Knows.mono (h : names.Knows text name) (hnames : names.texts <+: names'.texts) :
    names'.Knows text name := by
  obtain ⟨i, hi, rfl⟩ := Option.map_eq_some_iff.1 h
  obtain ⟨hlt, heq, hfirst⟩ := List.idxOf?_eq_some_iff.1 hi
  obtain ⟨more, hmore⟩ := hnames
  refine Option.map_eq_some_iff.2 ⟨i, List.idxOf?_eq_some_iff.2 ?_, rfl⟩
  rw [← hmore]
  refine ⟨by rw [List.length_append]; omega, ?_, fun j hj => ?_⟩
  · rwa [List.getElem_append_left hlt]
  · rw [List.getElem_append_left (hj.trans hlt)]
    exact hfirst j hj

theorem KnowsAll.mono {texts : List String} {ns : List Name} (h : names.KnowsAll texts ns)
    (hnames : names.texts <+: names'.texts) : names'.KnowsAll texts ns :=
  h.imp fun _ _ hknows => hknows.mono hnames

/-- A text that has been interned is not interned again. -/
theorem Knows.intern (h : names.Knows text name) : names.intern text = (name, names) :=
  intern_of_get?_eq_some h

/-- Interning a text later finds the name that it has been given. -/
theorem intern_again (h : (names.intern text).2.texts <+: final.texts) :
    final.intern text = ((names.intern text).1, final) := ((names.knows_intern text).mono h).intern

theorem prefix_internAll : ∀ (texts : List String) (names : NameTable),
    names.texts <+: (names.internAll texts).2.texts
  | [], _ => List.prefix_rfl
  | text :: texts, names => (names.prefix_intern text).trans (prefix_internAll texts _)

/-- **All names are known once they are interned.** -/
theorem knows_of_internAll : ∀ (texts : List String) (names : NameTable),
    (names.internAll texts).2.KnowsAll texts (names.internAll texts).1
  | [], _ => .nil
  | text :: texts, names => .cons ((names.knows_intern text).mono (prefix_internAll texts _))
    (knows_of_internAll texts _)

/-- Names that are known are not interned again. -/
theorem KnowsAll.internAll {texts : List String} {ns : List Name} (h : names.KnowsAll texts ns) :
    names.internAll texts = (ns, names) := by
  induction h with
  | nil => rfl
  | cons hname _ ih =>
    unfold NameTable.internAll
    rw [hname.intern]
    dsimp only
    rw [ih]

end NameTable

namespace Notation

variable {scope : List Name} {ts : List Token} {phrase : Phrase} {t : Ty}

/-- **What tokens stand for, they stand for again** when their names are known, and then no name is
added. -/
theorem Derives.again (h : Derives scope names ts phrase names')
    (hfinal : names'.texts <+: final.texts) : Derives scope final ts phrase final := by
  -- Each rule that interns a name takes the name that the text has at the end.
  induction h with
  | «variable» => exact .variable
  | literal => exact .literal
  | anything => exact .anything
  | unresolved => exact .unresolved
  | error => exact .error
  | @existential _ _ text ts traits h ih =>
    have hintern := NameTable.intern_again (h.isPrefix.trans hfinal)
    have hrest : Derives scope (final.intern text).2 ts (.moreTraits traits) final := by
      rw [hintern]
      exact ih hfinal
    have hagain := Derives.existential hrest
    rwa [hintern] at hagain
  | @param _ text hany hplaceholder hscope =>
    have hintern := NameTable.intern_again hfinal
    have hagain : (final.intern text).1 ∈ scope → _ := Derives.param hany hplaceholder
    rw [hintern] at hagain
    exact hagain hscope
  | @nominal _ text hany hplaceholder hscope =>
    have hintern := NameTable.intern_again hfinal
    have hagain : (final.intern text).1 ∉ scope → _ := Derives.nominal hany hplaceholder
    rw [hintern] at hagain
    exact hagain hscope
  | @generic _ _ _ text ts us first more hany hplaceholder hscope h h' ih ih' =>
    have hmiddle := h'.isPrefix.trans hfinal
    have hintern := NameTable.intern_again (h.isPrefix.trans hmiddle)
    have hfirst : Derives scope (final.intern text).2 ts (.type first) final := by
      rw [hintern]
      exact ih hmiddle
    have hagain := fun hscope : (final.intern text).1 ∉ scope =>
      Derives.generic hany hplaceholder hscope hfirst (ih' hfinal)
    rw [hintern] at hagain
    exact hagain hscope
  | group _ ih => exact .group (ih hfinal)
  | tuple _ hplain hlength ih => exact .tuple (ih hfinal) hplain hlength
  | function h h' ih ih' => exact .function (ih (h'.isPrefix.trans hfinal)) (ih' hfinal)
  | noTypes => exact .noTypes
  | oneMoreType h h' ih ih' => exact .oneMoreType (ih (h'.isPrefix.trans hfinal)) (ih' hfinal)
  | noTraits => exact .noTraits
  | @oneMoreTrait _ _ text ts traits h ih =>
    have hintern := NameTable.intern_again (h.isPrefix.trans hfinal)
    have hrest : Derives scope (final.intern text).2 ts (.moreTraits traits) final := by
      rw [hintern]
      exact ih hfinal
    have hagain := Derives.oneMoreTrait hrest
    rwa [hintern] at hagain
  | plain _ ih => exact .plain (ih hfinal)
  | passed _ ih => exact .passed (ih hfinal)
  | single _ ih => exact .single (ih hfinal)
  | trailing _ ih => exact .trailing (ih hfinal)
  | cons h h' ih ih' => exact .cons (ih (h'.isPrefix.trans hfinal)) (ih' hfinal)
  | nothing => exact .nothing
  | listed _ ih => exact .listed (ih hfinal)

/-- Reading adds names only. -/
theorem readType_isPrefix (h : readType names scope text = (.ok t, names')) :
    names.texts <+: names'.texts := by
  rcases htext : tokenize text with e | lexemes
  · unfold readType at h
    rw [htext] at h
    cases h
  · obtain ⟨ts, hts, hend⟩ := tokens_of_scan htext
    exact ((readType_of_tokens htext hts hend).1 h).isPrefix

/-- **A text is read as the same type again**, with no new names. -/
theorem readType_again (h : readType names scope text = (.ok t, names'))
    (hfinal : names'.texts <+: final.texts) : readType final scope text = (.ok t, final) := by
  rcases htext : tokenize text with e | lexemes
  · unfold readType at h
    rw [htext] at h
    cases h
  · obtain ⟨ts, hts, hend⟩ := tokens_of_scan htext
    have hderives := (readType_of_tokens htext hts hend).1 h
    exact (readType_of_tokens htext hts hend).2 (hderives.again hfinal)

end Notation
end TypeResolution
