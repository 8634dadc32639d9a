/-
# Where the tokens of a text stand

Splitting a text loses nothing of it. The characters before which the reader of tokens stands are
gone through by one of three steps (`Lexed`): a blank is left out, a token takes the characters that
spell it, or nothing is left. Each step moves the position on by the bytes of the characters that it
takes, so a span is always that of the characters its token was read from, whatever their number of
bytes; and a text that is no sequence of tokens is refused at characters of its own.

Key definitions: `Notation.Token.Spells`, `Notation.Marks`, `Notation.Lexed`, `Notation.Located`.
Key theorems: `Notation.exists_zeros`, `Notation.lexed_of_scan`, `Notation.marks_of_scan_error`,
`Notation.located_of_tokenize`.
-/
import Mathlib.Data.List.Induction
import TypeResolution.Proofs.Notation.Scanning

namespace TypeResolution
namespace Notation

variable {pos more : Nat} {c : Char} {cs part rest before : List Char} {token : Token}
variable {lexemes : List Lexeme} {text : String} {e : SyntaxError}

/-! ### Bytes -/

@[simp]
theorem byteLength_nil : byteLength [] = 0 := rfl

theorem foldl_utf8Size (cs : List Char) :
    ∀ n, cs.foldl (fun n c => n + c.utf8Size) n = n + byteLength cs := by
  unfold byteLength
  induction cs with
  | nil => exact fun _ => rfl
  | cons c cs ih =>
    intro n
    rw [List.foldl_cons, List.foldl_cons, ih, ih (0 + _), Nat.zero_add, Nat.add_assoc]

@[simp]
theorem byteLength_cons (c : Char) (cs : List Char) :
    byteLength (c :: cs) = c.utf8Size + byteLength cs := by
  rw [byteLength, List.foldl_cons, foldl_utf8Size, Nat.zero_add]

@[simp]
theorem byteLength_append (cs rest : List Char) :
    byteLength (cs ++ rest) = byteLength cs + byteLength rest := by
  rw [byteLength, List.foldl_append, foldl_utf8Size, ← byteLength]

theorem byteLength_pos (h : cs ≠ []) : 0 < byteLength cs := by
  obtain ⟨c, cs, rfl⟩ := List.exists_cons_of_ne_nil h
  rw [byteLength_cons]
  have := c.utf8Size_pos
  omega

@[simp]
theorem utf8ByteSize_ofList (cs : List Char) : (String.ofList cs).utf8ByteSize = byteLength cs := by
  induction cs with
  | nil => rfl
  | cons c cs ih =>
    rw [← List.singleton_append, String.ofList_append, String.utf8ByteSize_append, ih,
      byteLength_append, byteLength_cons, byteLength_nil, Nat.add_zero]
    exact congrArg (· + _) (String.utf8ByteSize_singleton)

theorem byteLength_toList (text : String) : byteLength text.toList = text.utf8ByteSize := by
  rw [← utf8ByteSize_ofList, String.ofList_toList]

theorem exists_digitChar (h : c.isDigit = true) : ∃ k < 10, c = Nat.digitChar k := by
  have hdigits : ∀ k < 10, Char.ofNat (48 + k) = Nat.digitChar k := by decide
  simp only [Char.isDigit, Bool.and_eq_true, decide_eq_true_eq, ge_iff_le,
    UInt32.le_iff_toNat_le] at h
  have hlow : 48 ≤ c.toNat := h.1
  have hhigh : c.toNat ≤ 57 := h.2
  refine ⟨c.toNat - 48, by omega, ?_⟩
  rw [← hdigits _ (by omega), Nat.add_sub_cancel' hlow, Char.ofNat_toNat]

theorem digitValue_digitChar : ∀ k < 10, digitValue (Nat.digitChar k) = k := by decide

/-- A digit is one byte. -/
theorem byteLength_digits (h : ∀ d ∈ cs, d.isDigit = true) : byteLength cs = cs.length := by
  have hone : ∀ k < 10, (Nat.digitChar k).utf8Size = 1 := by decide
  induction cs with
  | nil => rfl
  | cons d cs ih =>
    obtain ⟨k, hk, rfl⟩ := exists_digitChar (h d List.mem_cons_self)
    rw [byteLength_cons, hone k hk, ih fun d hd => h d (List.mem_cons_of_mem _ hd),
      List.length_cons, Nat.add_comm]

/-! ### Spelling -/

/-- The token is written so: a variable with any number of zeros before its number. -/
inductive Token.Spells : Token → List Char → Prop
  | openParen : Spells .openParen ['(']
  | closeParen : Spells .closeParen [')']
  | lessThan : Spells .lessThan ['<']
  | greaterThan : Spells .greaterThan ['>']
  | comma : Spells .comma [',']
  | ampersand : Spells .ampersand ['&']
  | arrow : Spells .arrow ['-', '>']
  | exclamation : Spells .exclamation ['!']
  | hash : Spells .hash ['#']
  | variable (zeros n : Nat) :
      Spells (.variable n) ('?' :: (List.replicate zeros '0' ++ n.repr.toList))
  | identifier (text : String) : Spells (.identifier text) text.toList
  | endOfInput : Spells .endOfInput []

/-- **Digits are those of their number, behind zeros.** -/
theorem exists_zeros {ds : List Char} (hds : ∀ d ∈ ds, d.isDigit = true) (hne : ds ≠ []) :
    ∃ zeros, ds = List.replicate zeros '0' ++ Nat.toDigits 10 (decimalValue ds) := by
  induction ds using List.reverseRecOn with
  | nil => exact absurd rfl hne
  | append_singleton ds d ih =>
    have ih := ih fun d hd => hds d (List.mem_append_left _ hd)
    obtain ⟨k, hk, rfl⟩ := exists_digitChar (hds d (by simp))
    have hvalue : decimalValue (ds ++ [Nat.digitChar k]) = 10 * decimalValue ds + k := by
      rw [decimalValue, List.foldl_append, List.foldl_cons, List.foldl_nil,
        digitValue_digitChar k hk]
      rfl
    have hlast := Nat.toDigits_of_lt_base hk
    rcases Nat.eq_zero_or_pos (decimalValue ds) with hzero | hpos
    · have hzeros : ∃ zeros, ds = List.replicate zeros '0' := by
        by_cases hempty : ds = []
        · exact ⟨0, hempty⟩
        · obtain ⟨zeros, hzeros⟩ := ih hempty
          rw [hzero] at hzeros
          exact ⟨zeros + 1, hzeros.trans List.replicate_succ'.symm⟩
      obtain ⟨zeros, hzeros⟩ := hzeros
      refine ⟨zeros, ?_⟩
      rw [hvalue, hzero, Nat.mul_zero, Nat.zero_add, hlast, hzeros]
    · obtain ⟨zeros, hzeros⟩ := ih (by rintro rfl; exact Nat.lt_irrefl 0 hpos)
      refine ⟨zeros, ?_⟩
      rw [hvalue, ← Nat.toDigits_append_toDigits (by decide) hpos hk, hlast, ← List.append_assoc,
        ← hzeros]

theorem Token.Spells.digits {ds : List Char} (hds : ∀ d ∈ ds, d.isDigit = true) (hne : ds ≠ []) :
    Token.Spells (.variable (decimalValue ds)) ('?' :: ds) := by
  obtain ⟨zeros, hzeros⟩ := exists_zeros hds hne
  have hspells := Token.Spells.variable zeros (decimalValue ds)
  rwa [Nat.toList_repr, ← hzeros] at hspells

/-- The token that is read takes characters that spell it. -/
theorem Token.spells_of_read (h : Token.read pos c rest = .ok (token, more)) :
    token.Spells (c :: rest.take more) := by
  have htake : ∀ p : Char → Bool, rest.take (rest.takeWhile p).length = rest.takeWhile p :=
    fun p => (List.prefix_iff_eq_take.1 (List.takeWhile_prefix p)).symm
  unfold Token.read at h
  split at h
  · cases h
    exact .openParen
  · cases h
    exact .closeParen
  · cases h
    exact .lessThan
  · cases h
    exact .greaterThan
  · cases h
    exact .comma
  · cases h
    exact .ampersand
  · cases h
    exact .exclamation
  · cases h
    exact .hash
  · -- A variable, whose number is that of the digits.
    dsimp only at h
    split at h
    · rename_i hdigits
      cases h
      rw [htake]
      exact .digits (fun d hd => List.mem_takeWhile_imp hd) hdigits.1
    · cases h
  · split at h
    · rename_i harrow
      cases h
      obtain ⟨rfl, hhead⟩ := harrow
      obtain ⟨rest, rfl⟩ := List.head?_eq_some_iff.1 hhead
      exact .arrow
    · split at h
      · cases h
        rw [htake]
        have hspells :=
          Token.Spells.identifier (String.ofList (c :: rest.takeWhile isIdentifierPart))
        rwa [String.toList_ofList] at hspells
      · cases h

/-! ### Steps through a text -/

/-- Going through the characters, which stand at byte `pos`, and the lexemes that come of it. -/
inductive Lexed : Nat → List Char → List Lexeme → Prop
  | done (pos : Nat) : Lexed pos [] [⟨.endOfInput, ⟨pos, 0⟩⟩]
  | blank {pos : Nat} {c : Char} {rest : List Char} {lexemes : List Lexeme} :
      isBlank c = true → Lexed (pos + c.utf8Size) rest lexemes → Lexed pos (c :: rest) lexemes
  | token {pos : Nat} {token : Token} {part rest : List Char} {lexemes : List Lexeme} :
      token.Spells part → token ≠ .endOfInput → part ≠ [] →
      Lexed (pos + byteLength part) rest lexemes →
      Lexed pos (part ++ rest) (⟨token, ⟨pos, byteLength part⟩⟩ :: lexemes)

theorem lexed_of_scan (h : Lexeme.scan pos cs = .ok lexemes) : Lexed pos cs lexemes := by
  induction pos, cs using Lexeme.scan.induct generalizing lexemes with
  | case1 pos =>
    rw [Lexeme.scan] at h
    obtain rfl := Except.ok.inj h
    exact .done pos
  | case2 pos c rest hblank ih =>
    rw [Lexeme.scan, if_pos hblank] at h
    exact .blank hblank (ih h)
  | case3 pos c rest hblank e hread =>
    rw [Lexeme.scan, if_neg hblank, hread] at h
    cases h
  | case4 pos c rest hblank token more hread length e hrest =>
    rw [Lexeme.scan, if_neg hblank, hread] at h
    dsimp only at h
    rw [hrest] at h
    cases h
  | case5 pos c rest hblank token more hread length others hrest =>
    rename_i ih
    rw [Lexeme.scan, if_neg hblank, hread] at h
    dsimp only at h
    rw [hrest] at h
    obtain rfl := Except.ok.inj h
    have hlexed := Lexed.token (Token.spells_of_read hread) (Token.ne_endOfInput_of_read hread)
      (List.cons_ne_nil c _) (ih hrest)
    rwa [List.cons_append, List.take_append_drop] at hlexed

/-! ### Spans -/

/-- The span is that of the part, in a text of characters that stand at byte `pos`. -/
def Marks (pos : Nat) (cs : List Char) (span : Span) (part : List Char) : Prop :=
  ∃ before after, cs = before ++ (part ++ after) ∧
    span = ⟨pos + byteLength before, byteLength part⟩

theorem Marks.append {span : Span} (before : List Char)
    (h : Marks (pos + byteLength before) cs span part) : Marks pos (before ++ cs) span part := by
  obtain ⟨more, after, rfl, rfl⟩ := h
  refine ⟨before ++ more, after, (List.append_assoc ..).symm, ?_⟩
  rw [byteLength_append, Nat.add_assoc]

theorem Marks.cons {span : Span} (h : Marks (pos + c.utf8Size) cs span part) :
    Marks pos (c :: cs) span part :=
  Marks.append [c] (by rwa [byteLength_cons, byteLength_nil, Nat.add_zero])

theorem marks_here (pos : Nat) (part rest : List Char) :
    Marks pos (part ++ rest) ⟨pos, byteLength part⟩ part :=
  ⟨[], rest, rfl, rfl⟩

/-- What is known of the lexemes of characters that stand at byte `pos`. -/
structure Located (pos : Nat) (cs : List Char) (lexemes : List Lexeme) : Prop where
  /-- Each span is that of characters that spell the token. -/
  marked : ∀ l ∈ lexemes, ∃ part, Marks pos cs l.span part ∧ l.token.Spells part
  /-- The spans are in order, and disjoint. -/
  ordered : lexemes.Pairwise fun a b => a.span.stop ≤ b.span.start
  /-- A character that lies in no span is a blank. -/
  blank : ∀ before c after, cs = before ++ c :: after →
    (∀ l ∈ lexemes, l.span.contains (pos + byteLength before) = false) → isBlank c = true
  /-- The last token is the end of the input, without a character and behind all of them. The
  others are not, and have characters. -/
  ended : ∃ ts, lexemes = ts ++ [⟨.endOfInput, ⟨pos + byteLength cs, 0⟩⟩] ∧
    ∀ l ∈ ts, l.token ≠ .endOfInput ∧ 0 < l.span.length

theorem Marks.le_start {span : Span} (h : Marks pos cs span part) : pos ≤ span.start := by
  obtain ⟨before, after, -, rfl⟩ := h
  exact Nat.le_add_right _ _

theorem Located.done (pos : Nat) : Located pos [] [⟨.endOfInput, ⟨pos, 0⟩⟩] where
  marked l hl := by
    obtain rfl := List.mem_singleton.1 hl
    exact ⟨[], marks_here pos [] [], .endOfInput⟩
  ordered := List.pairwise_singleton ..
  blank before c after h := by simp at h
  ended := ⟨[], rfl, nofun⟩

theorem Located.skip (hc : isBlank c = true) (h : Located (pos + c.utf8Size) rest lexemes) :
    Located pos (c :: rest) lexemes where
  marked l hl := by
    obtain ⟨part, hmarks, hspells⟩ := h.marked l hl
    exact ⟨part, hmarks.cons, hspells⟩
  ordered := h.ordered
  blank before d after heq hout := by
    cases before with
    | nil => exact (List.cons.inj heq).1 ▸ hc
    | cons b before =>
      obtain ⟨rfl, hrest⟩ := List.cons.inj heq
      refine h.blank before d after hrest fun l hl => ?_
      rw [Nat.add_assoc, ← byteLength_cons]
      exact hout l hl
  ended := by
    rw [byteLength_cons, ← Nat.add_assoc]
    exact h.ended

theorem Located.cons (hspells : token.Spells part) (htoken : token ≠ .endOfInput)
    (hpart : part ≠ []) (h : Located (pos + byteLength part) rest lexemes) :
    Located pos (part ++ rest) (⟨token, ⟨pos, byteLength part⟩⟩ :: lexemes) where
  marked l hl := by
    rcases List.mem_cons.1 hl with rfl | hl
    · exact ⟨part, marks_here pos part rest, hspells⟩
    · obtain ⟨part', hmarks, hspells'⟩ := h.marked l hl
      exact ⟨part', hmarks.append, hspells'⟩
  ordered := by
    refine List.pairwise_cons.2 ⟨fun l hl => ?_, h.ordered⟩
    obtain ⟨part', hmarks, -⟩ := h.marked l hl
    exact hmarks.le_start
  blank before d after heq hout := by
    have hbehind :
        ∀ more, before = part ++ more → rest = more ++ d :: after → isBlank d = true := by
      rintro more rfl hrest
      refine h.blank more d after hrest fun l hl => ?_
      rw [Nat.add_assoc, ← byteLength_append]
      exact hout l (List.mem_cons_of_mem _ hl)
    rcases List.append_eq_append_iff.1 heq with ⟨more, hbefore, hrest⟩ | ⟨inner, rfl, hd⟩
    · exact hbehind more hbefore hrest
    · cases inner with
      | nil => exact hbehind [] (by simp) hd.symm
      | cons i inner =>
        -- The character would lie within the token.
        have hcontains := hout _ List.mem_cons_self
        have := i.utf8Size_pos
        simp [Span.contains, Span.stop] at hcontains
        omega
  ended := by
    obtain ⟨ts, rfl, hts⟩ := h.ended
    refine ⟨⟨token, ⟨pos, byteLength part⟩⟩ :: ts, ?_, List.forall_mem_cons.2
      ⟨⟨htoken, byteLength_pos hpart⟩, hts⟩⟩
    rw [byteLength_append, Nat.add_assoc]
    rfl

theorem Lexed.located (h : Lexed pos cs lexemes) : Located pos cs lexemes := by
  induction h with
  | done pos => exact .done pos
  | blank hc _ ih => exact .skip hc ih
  | token hspells htoken hpart _ ih => exact .cons hspells htoken hpart ih

/-! ### Texts that are refused -/

theorem marks_of_read_error (h : Token.read pos c rest = .error e) :
    ∃ part, Marks pos (c :: rest) e.span part ∧ part ≠ [] := by
  unfold Token.read at h
  split at h
  all_goals try cases h
  · dsimp only at h
    split at h
    · cases h
    · cases h
      have hmarks :=
        marks_here pos ('?' :: rest.takeWhile Char.isDigit) (rest.dropWhile Char.isDigit)
      rw [byteLength_cons, byteLength_digits fun d hd => List.mem_takeWhile_imp hd, Nat.add_comm,
        List.cons_append, List.takeWhile_append_dropWhile] at hmarks
      exact ⟨_, hmarks, List.cons_ne_nil _ _⟩
  · split at h
    · cases h
    · split at h
      · cases h
      · cases h
        have hmarks := marks_here pos [c] rest
        rw [byteLength_cons, byteLength_nil, Nat.add_zero] at hmarks
        exact ⟨[c], hmarks, List.cons_ne_nil _ _⟩

/-- **A text that is no sequence of tokens is refused at some of its characters.** -/
theorem marks_of_scan_error (h : Lexeme.scan pos cs = .error e) :
    ∃ part, Marks pos cs e.span part ∧ part ≠ [] := by
  induction pos, cs using Lexeme.scan.induct with
  | case1 pos =>
    rw [Lexeme.scan] at h
    cases h
  | case2 pos c rest hblank ih =>
    rw [Lexeme.scan, if_pos hblank] at h
    obtain ⟨part, hmarks, hpart⟩ := ih h
    exact ⟨part, hmarks.cons, hpart⟩
  | case3 pos c rest hblank e' hread =>
    rw [Lexeme.scan, if_neg hblank, hread] at h
    obtain rfl := Except.error.inj h
    exact marks_of_read_error hread
  | case4 pos c rest hblank token more hread length e' hrest ih =>
    rw [Lexeme.scan, if_neg hblank, hread] at h
    dsimp only at h
    rw [hrest] at h
    obtain rfl := Except.error.inj h
    obtain ⟨part, hmarks, hpart⟩ := ih hrest
    have hmarks' := hmarks.append
    rw [List.cons_append, List.take_append_drop] at hmarks'
    exact ⟨part, hmarks', hpart⟩
  | case5 pos c rest hblank token more hread length others hrest =>
    rw [Lexeme.scan, if_neg hblank, hread] at h
    dsimp only at h
    rw [hrest] at h
    cases h

/-- **The tokens of a text lie in it, and nothing but blanks lies between them.** -/
theorem located_of_tokenize (h : tokenize text = .ok lexemes) : Located 0 text.toList lexemes :=
  (lexed_of_scan h).located

end Notation
end TypeResolution
