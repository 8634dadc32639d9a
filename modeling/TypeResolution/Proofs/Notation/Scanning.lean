/-
# Splitting a text into tokens

A token is split off the characters before which it stands, whatever they are; only an identifier
and a number would go on with some of them (`Notation.Breaks`). Conversely every token of a text was
read at one of its characters (`Notation.exists_read_of_scan`), so its identifiers are identifiers
when they stand alone (`Notation.isIdentifier_of_scan`).

Key definitions: `Notation.IsIdentifier`, `Notation.Scans`, `Notation.Breaks`.
Key theorems: `Notation.isIdentifier_iff`, `Notation.Scans.identifier`, `Notation.Scans.variable`.
-/
import Mathlib.Data.List.TakeWhile
import TypeResolution.Notation.Token

namespace TypeResolution
namespace Notation

variable {cs rest part : List Char} {ts : List Token} {token : Token} {c : Char} {text : String}

/-- The text is split into one token, and this is the text itself as an identifier. -/
def IsIdentifier (text : String) : Prop :=
  (tokenize text).toOption.map (·.map (·.token)) = some [.identifier text, .endOfInput]

instance : DecidablePred IsIdentifier := fun _ => inferInstanceAs (Decidable (_ = _))

/-- The characters are split into these tokens, wherever in a text they stand. -/
def Scans (cs : List Char) (ts : List Token) : Prop :=
  ∀ pos, ∃ lexemes, Lexeme.scan pos cs = .ok lexemes ∧ lexemes.map (·.token) = ts

theorem scans_nil : Scans [] [.endOfInput] := fun pos => ⟨_, by rw [Lexeme.scan], rfl⟩

theorem Scans.blank (h : Scans cs ts) (hc : isBlank c = true) : Scans (c :: cs) ts := by
  intro pos
  rw [Lexeme.scan, if_pos hc]
  exact h _

/-- A token is split off, with the characters that belong to it. -/
theorem Scans.split (h : Scans cs ts) (hc : isBlank c = false)
    (hread : ∀ pos, Token.read pos c (part ++ cs) = .ok (token, part.length)) :
    Scans (c :: (part ++ cs)) (token :: ts) := by
  intro pos
  obtain ⟨lexemes, hscan, hts⟩ := h (pos + byteLength (c :: part))
  refine ⟨⟨token, ⟨pos, byteLength (c :: part)⟩⟩ :: lexemes, ?_, congrArg (token :: ·) hts⟩
  rw [Lexeme.scan, if_neg (by simp [hc]), hread]
  dsimp only
  rw [List.take_left, List.drop_left, hscan]

/-- A token of one character. -/
theorem Scans.mark (h : Scans cs ts) (hc : isBlank c = false)
    (hread : ∀ pos, Token.read pos c cs = .ok (token, 0)) : Scans (c :: cs) (token :: ts) :=
  show Scans (c :: ([] ++ cs)) (token :: ts) from h.split hc hread

theorem Scans.arrow (h : Scans cs ts) : Scans ('-' :: '>' :: cs) (.arrow :: ts) :=
  show Scans ('-' :: (['>'] ++ cs)) (.arrow :: ts) from h.split rfl fun _ => rfl

/-! ### Where an identifier ends -/

/-- The first of the characters goes on with no identifier. -/
def Breaks (cs : List Char) : Prop := ∀ c, cs.head? = some c → isIdentifierPart c = false

theorem breaks_cons (hc : isIdentifierPart c = false) : Breaks (c :: cs) := by
  intro d hd
  rwa [← Option.some.inj hd]

theorem takeWhile_append_of_breaks {p : Char → Bool} (hpart : ∀ d ∈ part, p d = true)
    (hp : ∀ d, p d = true → isIdentifierPart d = true) (hcs : Breaks cs) :
    (part ++ cs).takeWhile p = part := by
  rw [List.takeWhile_append_of_pos hpart]
  rcases cs with _ | ⟨c, cs⟩
  · simp
  · have hc : p c = false := by
      by_contra hne
      have hbreak := hcs c rfl
      rw [hp c (by simpa using hne)] at hbreak
      cases hbreak
    simp [hc]

/-- The code points of blanks. -/
def blankCodes : List Nat :=
  [0x9, 0xA, 0xB, 0xC, 0xD, 0x20, 0x85, 0xA0, 0x1680, 0x2000, 0x2001, 0x2002, 0x2003, 0x2004, 0x2005,
    0x2006, 0x2007, 0x2008, 0x2009, 0x200A, 0x2028, 0x2029, 0x202F, 0x205F, 0x3000]

theorem isIdentifierStart_of_mem_blankCodes :
    ∀ n ∈ blankCodes, isIdentifierStart (Char.ofNat n) = false := by
  decide +kernel

theorem isBlank_of_isIdentifierStart (hc : isIdentifierStart c = true) : isBlank c = false := by
  by_contra hblank
  have hmem : c.toNat ∈ blankCodes := by
    simp only [isBlank, Bool.or_eq_true, Bool.and_eq_true, decide_eq_true_eq, beq_iff_eq,
      Bool.not_eq_false] at hblank
    simp only [blankCodes, List.mem_cons, List.not_mem_nil, or_false]
    omega
  have hstart := isIdentifierStart_of_mem_blankCodes _ hmem
  rw [Char.ofNat_toNat, hc] at hstart
  cases hstart

theorem read_of_isIdentifierStart {pos : Nat} (hc : isIdentifierStart c = true) :
    Token.read pos c rest = .ok (.identifier (String.ofList (c :: rest.takeWhile isIdentifierPart)),
      (rest.takeWhile isIdentifierPart).length) := by
  have hne : ∀ d, isIdentifierStart d = false → c ≠ d := by
    rintro d hd rfl
    rw [hc] at hd
    cases hd
  unfold Token.read
  split
  all_goals first | exact absurd hc (by decide +kernel) | skip
  rw [if_neg fun h => hne '-' (by decide +kernel) h.1, if_pos hc]

theorem Scans.identifier (h : Scans cs ts) (hcs : Breaks cs) (hc : isIdentifierStart c = true)
    (hpart : ∀ d ∈ part, isIdentifierPart d = true) :
    Scans (c :: (part ++ cs)) (.identifier (String.ofList (c :: part)) :: ts) :=
  h.split (isBlank_of_isIdentifierStart hc) fun pos => by
    rw [read_of_isIdentifierStart hc, takeWhile_append_of_breaks hpart (fun _ => id) hcs]

theorem decimalValue_toDigits (n : Nat) : decimalValue (Nat.toDigits 10 n) = n :=
  Nat.ofDigitChars_toDigits (by decide) (by decide)

theorem Scans.variable {n : Nat} (h : Scans cs ts) (hcs : Breaks cs) (hn : n < variableBound) :
    Scans ('?' :: (n.repr.toList ++ cs)) (.variable n :: ts) := by
  refine h.split rfl fun pos => ?_
  have hdigits : ∀ d ∈ n.repr.toList, d.isDigit = true := by
    rw [Nat.toList_repr]
    exact fun d hd => Nat.isDigit_of_mem_toDigits (by decide) (by decide) hd
  have hpart : ∀ d : Char, d.isDigit = true → isIdentifierPart d = true := by
    intro d hd
    simp [isIdentifierPart, Char.isAlphanum, hd]
  have hne : n.repr.toList ≠ [] := by simp
  have hvalue : decimalValue n.repr.toList = n := by
    rw [Nat.toList_repr, decimalValue_toDigits]
  show (if _ ∧ _ then _ else _) = _
  rw [takeWhile_append_of_breaks hdigits hpart hcs, hvalue, if_pos ⟨hne, hn⟩]

/-! ### The tokens of a text -/

/-- Induction along the tokens that are split off a text. -/
@[elab_as_elim]
theorem scan_induct {motive : List Lexeme → Prop} {pos : Nat} {lexemes : List Lexeme}
    (h : Lexeme.scan pos cs = .ok lexemes)
    (hend : ∀ pos, motive [⟨.endOfInput, ⟨pos, 0⟩⟩])
    (hcons : ∀ pos c rest token more length lexemes, Token.read pos c rest = .ok (token, more) →
      motive lexemes → motive (⟨token, ⟨pos, length⟩⟩ :: lexemes)) : motive lexemes := by
  induction pos, cs using Lexeme.scan.induct generalizing lexemes with
  | case1 pos =>
    rw [Lexeme.scan] at h
    obtain rfl := Except.ok.inj h
    exact hend pos
  | case2 pos c rest hblank ih =>
    rw [Lexeme.scan, if_pos hblank] at h
    exact ih h
  | case3 pos c rest hblank e hread =>
    rw [Lexeme.scan, if_neg hblank, hread] at h
    cases h
  | case4 pos c rest hblank token more hread length e hrest =>
    rw [Lexeme.scan, if_neg hblank, hread] at h
    dsimp only at h
    rw [hrest] at h
    cases h
  | case5 pos c rest hblank token more hread length others hrest =>
    rename_i ih
    rw [Lexeme.scan, if_neg hblank, hread] at h
    dsimp only at h
    rw [hrest] at h
    obtain rfl := Except.ok.inj h
    exact hcons _ _ _ _ _ _ _ hread (ih hrest)

theorem Token.ne_endOfInput_of_read {pos more : Nat}
    (h : Token.read pos c rest = .ok (token, more)) : token ≠ .endOfInput := by
  unfold Token.read at h
  grind

/-- The end of the input is the last of the tokens of a text, and no other of them. -/
theorem tokens_of_scan {pos : Nat} {lexemes : List Lexeme}
    (h : Lexeme.scan pos cs = .ok lexemes) :
    ∃ ts, lexemes.map (·.token) = ts ++ [.endOfInput] ∧ .endOfInput ∉ ts := by
  refine scan_induct h (fun pos => ⟨[], rfl, List.not_mem_nil⟩) ?_
  rintro pos c rest token more length lexemes hread ⟨ts, hts, hend⟩
  refine ⟨token :: ts, congrArg (token :: ·) hts, fun hmem => ?_⟩
  rcases List.mem_cons.1 hmem with htoken | hmem
  · exact Token.ne_endOfInput_of_read hread htoken.symm
  · exact hend hmem

/-- Every token but the end of the input was read at one of the characters. -/
theorem exists_read_of_scan {pos : Nat} {lexemes : List Lexeme}
    (h : Lexeme.scan pos cs = .ok lexemes) (htoken : token ∈ lexemes.map (·.token))
    (hend : token ≠ .endOfInput) :
    ∃ pos' c rest more, Token.read pos' c rest = .ok (token, more) := by
  revert htoken
  refine scan_induct h (fun pos htoken => ?_) ?_
  · exact absurd (List.mem_singleton.1 htoken) hend
  · intro pos c rest token' more length lexemes hread ih htoken
    rcases List.mem_cons.1 htoken with rfl | htoken
    · exact ⟨pos, c, rest, more, hread⟩
    · exact ih htoken

theorem of_read_identifier {pos more : Nat}
    (h : Token.read pos c rest = .ok (.identifier text, more)) :
    isIdentifierStart c = true ∧ text = String.ofList (c :: rest.takeWhile isIdentifierPart) := by
  unfold Token.read at h
  grind

theorem exists_chars_of_scan {pos : Nat} {lexemes : List Lexeme}
    (h : Lexeme.scan pos cs = .ok lexemes) (htext : .identifier text ∈ lexemes.map (·.token)) :
    ∃ c part, text = String.ofList (c :: part) ∧ isIdentifierStart c = true ∧
      ∀ d ∈ part, isIdentifierPart d = true := by
  obtain ⟨pos', c, rest, more, hread⟩ := exists_read_of_scan h htext nofun
  obtain ⟨hc, htext⟩ := of_read_identifier hread
  exact ⟨c, _, htext, hc, fun d hd => List.mem_takeWhile_imp hd⟩

theorem lt_variableBound_of_read {pos more n : Nat}
    (h : Token.read pos c rest = .ok (.variable n, more)) : n < variableBound := by
  unfold Token.read at h
  grind

/-- **Identifiers by their characters.** -/
theorem isIdentifier_iff : IsIdentifier text ↔ ∃ c part, text = String.ofList (c :: part) ∧
    isIdentifierStart c = true ∧ ∀ d ∈ part, isIdentifierPart d = true := by
  constructor
  · intro h
    unfold IsIdentifier tokenize at h
    rcases hscan : Lexeme.scan 0 text.toList with e | lexemes
    · rw [hscan] at h
      cases h
    · rw [hscan] at h
      have hts : lexemes.map (·.token) = [.identifier text, .endOfInput] := Option.some.inj h
      exact exists_chars_of_scan hscan (by rw [hts]; exact List.mem_cons_self)
  · rintro ⟨c, part, rfl, hc, hpart⟩
    obtain ⟨lexemes, hscan, hts⟩ := scans_nil.identifier nofun hc hpart 0
    rw [List.append_nil] at hscan
    unfold IsIdentifier tokenize
    rw [String.toList_ofList, hscan]
    exact congrArg some hts

/-- What is split off a text as an identifier is one. -/
theorem isIdentifier_of_scan {pos : Nat} {lexemes : List Lexeme}
    (h : Lexeme.scan pos cs = .ok lexemes)
    (htext : .identifier text ∈ lexemes.map (·.token)) : IsIdentifier text :=
  isIdentifier_iff.2 (exists_chars_of_scan h htext)

theorem lt_variableBound_of_scan {pos n : Nat} {lexemes : List Lexeme}
    (h : Lexeme.scan pos cs = .ok lexemes)
    (hn : .variable n ∈ lexemes.map (·.token)) : n < variableBound := by
  obtain ⟨pos', c, rest, more, hread⟩ := exists_read_of_scan h hn nofun
  exact lt_variableBound_of_read hread

end Notation
end TypeResolution
