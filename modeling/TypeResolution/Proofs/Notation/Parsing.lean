/-
# Reading and the grammar

The reader accepts what the grammar derives, and nothing else (`Notation.readType_of_tokens`). It is
a function, so the grammar is not ambiguous (`Notation.Derives.unique`).

Key theorems: `Notation.Derives.unique`, `Notation.readType_of_tokens`,
`Notation.readType_iff_derives`.
-/
import TypeResolution.Proofs.Notation.Completeness
import TypeResolution.Proofs.Notation.Scanning
import TypeResolution.Proofs.Notation.Soundness

namespace TypeResolution
namespace Notation

variable {scope : List Name} {names names' : NameTable} {ts : List Token} {t : Ty} {text : String}

/-- **The grammar is not ambiguous.** -/
theorem Derives.unique {t' : Ty} {names₁ names₂ : NameTable}
    (h : Derives scope names ts (.type t) names₁) (h' : Derives scope names ts (.type t') names₂) :
    t = t' ∧ names₁ = names₂ := by
  let r : Reader := ⟨(ts ++ [Token.endOfInput]).map (⟨·, default⟩), names⟩
  have hr : r.At (ts ++ [.endOfInput]) names := by
    refine ⟨?_, rfl⟩
    simp [r, Reader.tokens, Function.comp_def]
  obtain ⟨r₁, hread₁, hr₁⟩ := h.readable (Nat.le_refl _) hr rfl
  obtain ⟨r₂, hread₂, hr₂⟩ := h'.readable (Nat.le_refl _) hr rfl
  obtain ⟨ht, rfl⟩ := hread₁.unique hread₂
  exact ⟨ht, hr₁.2.symm.trans hr₂.2⟩

/-- Tokens up to the first end of the input are all tokens before it. -/
theorem eq_of_append_endOfInput {us vs : List Token} (h : ts ++ [.endOfInput] = us ++ vs)
    (hend : .endOfInput ∉ ts) (hvs : vs.head? = some .endOfInput) : us = ts := by
  induction ts generalizing us with
  | nil =>
    rcases us with _ | ⟨u, us⟩
    · rfl
    · obtain ⟨-, htail⟩ := List.cons.inj h
      rw [(List.append_eq_nil_iff.1 htail.symm).2] at hvs
      cases hvs
  | cons token ts ih =>
    rcases us with _ | ⟨u, us⟩
    · rw [List.nil_append] at h
      rw [← h] at hvs
      exact absurd (Option.some.inj hvs).symm (List.ne_of_not_mem_cons hend)
    · obtain ⟨rfl, htail⟩ := List.cons.inj h
      rw [ih htail (List.not_mem_of_not_mem_cons hend)]

/-- **What is read of a text** is what its tokens stand for. -/
theorem readType_of_tokens {lexemes : List Lexeme} (htext : tokenize text = .ok lexemes)
    (hts : lexemes.map (·.token) = ts ++ [.endOfInput]) (hend : .endOfInput ∉ ts) :
    readType names scope text = (.ok t, names') ↔ Derives scope names ts (.type t) names' := by
  have hreads : readType names scope text = (.ok t, names') ↔
      ∃ r', Reads (Reader.readWhole scope) ⟨lexemes, names⟩ t r' ∧ r'.names = names' := by
    unfold readType Reads
    rw [htext]
    dsimp only
    rcases (Reader.readWhole scope).run.run ⟨lexemes, names⟩ with ⟨result, r⟩
    constructor
    · intro h
      obtain ⟨rfl, rfl⟩ := Prod.mk.inj h
      exact ⟨r, rfl, rfl⟩
    · rintro ⟨r', h, rfl⟩
      cases h
      rfl
  rw [hreads]
  constructor
  · rintro ⟨r', hread, rfl⟩
    obtain ⟨r₁, htype, hnext, rfl⟩ := Reader.reads_readWhole.1 hread
    have hready : Reader.Ready ⟨lexemes, names⟩ := ⟨ts, hts⟩
    obtain ⟨us, hus, hr₁, hderives⟩ := (sound scope _).type hready htype
    have hhead : r₁.tokens.head? = some .endOfInput := by
      obtain ⟨vs, hvs⟩ := hr₁
      rw [← hnext]
      cases vs with
      | nil => rw [hvs, Reader.next_of_tokens hvs]; rfl
      | cons token vs => rw [hvs, Reader.next_of_tokens hvs]; rfl
    rw [Reader.names_past, ← eq_of_append_endOfInput (hts.symm.trans hus) hend hhead]
    exact hderives
  · intro hderives
    have hlength : 3 * ts.length ≤ 3 * lexemes.length := by
      have hlength := congrArg List.length hts
      simp at hlength
      omega
    have hat : Reader.At ⟨lexemes, names⟩ (ts ++ [.endOfInput]) names := ⟨hts, rfl⟩
    obtain ⟨r₁, hread, hr₁⟩ := hderives.readable hlength hat rfl
    exact ⟨r₁.past, Reader.reads_readWhole.2 ⟨r₁, hread, hr₁.next, rfl⟩,
      (Reader.names_past r₁).trans hr₁.2⟩

/-- What is read of a text as a type that is known. -/
theorem exists_names_of_readType
    (h : ((readType names scope text).1.toOption == some t) = true) :
    ∃ names', readType names scope text = (.ok t, names') := by
  rcases hread : readType names scope text with ⟨e | u, names'⟩
  · rw [hread] at h
    cases h
  · rw [hread] at h
    obtain rfl : u = t := Option.some.inj (eq_of_beq h)
    exact ⟨names', rfl⟩

/-- **The reader accepts exactly the grammar.** Of a text that is a sequence of tokens it reads the
type that the whole sequence stands for, and if there is none it says that the text is no type. No
sequence of tokens stands for two types. -/
theorem readType_iff_derives (names : NameTable) (scope : List Name) :
    (∀ text lexemes, tokenize text = .ok lexemes →
      ∃ ts, lexemes.map (·.token) = ts ++ [.endOfInput] ∧
        (∀ t names', readType names scope text = (.ok t, names') ↔
          Derives scope names ts (.type t) names') ∧
        ((∀ t names', ¬ Derives scope names ts (.type t) names') →
          ∃ e names', readType names scope text = (.error e, names'))) ∧
    ∀ ts t t' names₁ names₂, Derives scope names ts (.type t) names₁ →
      Derives scope names ts (.type t') names₂ → t = t' ∧ names₁ = names₂ := by
  refine ⟨fun text lexemes htext => ?_, fun ts t t' names₁ names₂ h h' => h.unique h'⟩
  obtain ⟨ts, hts, hend⟩ := tokens_of_scan htext
  refine ⟨ts, hts, fun t names' => readType_of_tokens htext hts hend, fun hnot => ?_⟩
  rcases hread : readType names scope text with ⟨e | t, names'⟩
  · exact ⟨e, names', rfl⟩
  · exact absurd ((readType_of_tokens htext hts hend).1 hread) (hnot t names')

/-- A word for a convention is one before a type, and a type elsewhere; and the list with it has to be
followed by an arrow. -/
theorem readType_iff_derives_set :
    let tokens : List Token := [.openParen, .identifier "inout", .identifier "set", .closeParen]
    let set : Ty := .nominal ⟨0⟩ []
    (∃ names, Derives [] .empty (tokens ++ [.arrow, .identifier "set"])
      (.type (.function [(.inout, set)] set)) names) ∧
      ∀ t names, ¬ Derives [] .empty tokens (.type t) names := by
  intro tokens set
  obtain ⟨hreads, -⟩ := readType_iff_derives .empty []
  -- What the reader comes to on a text that has these tokens.
  have hderives : ∀ {text ts}, (tokenize text).toOption.map (·.map (·.token)) =
      some (ts ++ [.endOfInput]) → ∀ t names',
      readType .empty [] text = (.ok t, names') ↔ Derives [] .empty ts (.type t) names' := by
    intro text ts htokens
    rcases htext : tokenize text with e | lexemes
    · rw [htext] at htokens
      cases htokens
    · rw [htext] at htokens
      obtain ⟨us, hus, hiff, -⟩ := hreads text lexemes htext
      obtain rfl := (List.append_inj' (hus.symm.trans (Option.some.inj htokens)) rfl).1
      exact hiff
  constructor
  · obtain ⟨names', hread⟩ : ∃ names', readType .empty [] "(inout set) -> set" =
        (.ok (.function [(.inout, set)] set), names') :=
      exists_names_of_readType (by decide +kernel)
    exact ⟨names', (hderives (by decide +kernel) _ _).1 hread⟩
  · intro t names' h
    have hread := (@hderives "(inout set)" tokens (by decide +kernel) t names').2 h
    have herror : (readType .empty [] "(inout set)").1.toOption = none := by decide +kernel
    rw [hread] at herror
    cases herror

end Notation
end TypeResolution
