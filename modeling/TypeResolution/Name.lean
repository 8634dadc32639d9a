/-
# Interned names

Type, trait, member and parameter names are kept once, in a `NameTable`, and handled as
positions in it. A name compares by position, so the name that was interned first is the
smallest. A table holds no text twice: `intern` hands out the position of a text it has
seen before and appends a text it has not (`NameTable.resolve_intern`,
`NameTable.get?_intern`), and never moves a name (`NameTable.resolve_intern_of_lt`).

Key definitions: `Name`, `NameTable`, `NameTable.intern`, `NameTable.resolve`.
-/
namespace TypeResolution

/-- A handle on an interned text: the position at which the text entered its table. -/
structure Name where
  index : Nat
deriving DecidableEq, Inhabited

instance : LT Name := ⟨fun a b => a.index < b.index⟩

instance (a b : Name) : Decidable (a < b) := inferInstanceAs (Decidable (a.index < b.index))

/-- The interned texts, in the order in which they came, each of them once. -/
structure NameTable where
  texts : List String
  nodup : texts.Nodup

namespace NameTable

/-- The table without names. -/
def empty : NameTable := ⟨[], List.nodup_nil⟩

instance : Inhabited NameTable := ⟨empty⟩

/-- The number of names. -/
def size (t : NameTable) : Nat := t.texts.length

/-- The name of a text that has been interned. -/
def get? (t : NameTable) (text : String) : Option Name :=
  (t.texts.idxOf? text).map Name.mk

/-- The text of a name, if the name comes from this table. -/
def resolve? (t : NameTable) (name : Name) : Option String :=
  t.texts[name.index]?

/-- The text of a name of this table. -/
def resolve (t : NameTable) (name : Name) : String :=
  (t.resolve? name).getD ""

theorem not_mem_of_get?_eq_none {t : NameTable} {text : String} (h : t.get? text = none) :
    text ∉ t.texts := by
  simpa [get?] using h

/-- The name of `text`, appended to the table if it is new. -/
def intern (t : NameTable) (text : String) : Name × NameTable :=
  match h : t.get? text with
  | some name => (name, t)
  | none =>
    (⟨t.size⟩, ⟨t.texts ++ [text], by
      have := not_mem_of_get?_eq_none h
      rw [List.nodup_append]
      exact ⟨t.nodup, by simp, by grind⟩⟩)

/-- The names of `texts`, interned from left to right. -/
def internAll (t : NameTable) : List String → List Name × NameTable
  | [] => ([], t)
  | text :: rest =>
    let (name, t) := t.intern text
    let (names, t) := t.internAll rest
    (name :: names, t)

theorem intern_of_get?_eq_some {t : NameTable} {text : String} {name : Name}
    (h : t.get? text = some name) : t.intern text = (name, t) := by
  unfold intern
  split
  · simp_all
  · simp_all

theorem texts_intern_of_get?_eq_none {t : NameTable} {text : String} (h : t.get? text = none) :
    (t.intern text).2.texts = t.texts ++ [text] ∧ (t.intern text).1 = ⟨t.size⟩ := by
  unfold intern
  split
  · simp_all
  · simp

theorem resolve?_of_get?_eq_some {t : NameTable} {text : String} {name : Name}
    (h : t.get? text = some name) : t.resolve? name = some text := by
  obtain ⟨i, hi, rfl⟩ := Option.map_eq_some_iff.1 h
  obtain ⟨hlt, heq, -⟩ := List.idxOf?_eq_some_iff.1 hi
  simp only [resolve?]
  rw [List.getElem?_eq_getElem hlt]
  simpa using heq

/-- Interning a text and looking its name up gives the text back. -/
theorem resolve_intern (t : NameTable) (text : String) :
    (t.intern text).2.resolve (t.intern text).1 = text := by
  cases h : t.get? text with
  | some name => simp [intern_of_get?_eq_some h, resolve, resolve?_of_get?_eq_some h]
  | none =>
    obtain ⟨h1, h2⟩ := texts_intern_of_get?_eq_none h
    simp [resolve, resolve?, h1, h2, size]

/-- A name keeps its text when others are interned. -/
theorem resolve_intern_of_lt {t : NameTable} {name : Name} (text : String)
    (h : name.index < t.size) : (t.intern text).2.resolve name = t.resolve name := by
  cases hg : t.get? text with
  | some _ => simp [intern_of_get?_eq_some hg]
  | none =>
    obtain ⟨h1, -⟩ := texts_intern_of_get?_eq_none hg
    simp only [size] at h
    simp [resolve, resolve?, h1, List.getElem?_append_left h]

/-- The name of a text does not change once the text is interned. -/
theorem get?_intern (t : NameTable) (text : String) :
    (t.intern text).2.get? text = some (t.intern text).1 := by
  cases h : t.get? text with
  | some name => simp [intern_of_get?_eq_some h, h]
  | none =>
    obtain ⟨h1, h2⟩ := texts_intern_of_get?_eq_none h
    have hn := not_mem_of_get?_eq_none h
    simp only [get?, h1, h2, size, Option.map_eq_some_iff, Name.mk.injEq, exists_eq_right]
    rw [List.idxOf?_eq_some_iff]
    grind

end NameTable
end TypeResolution
