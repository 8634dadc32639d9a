/-
# Filled templates

A message says its arguments verbatim if each hole of its template is replaced by the argument of
its number, all at once (`fillHoles`). But the holes are filled one after the other, each in the
text that the arguments before it left: an argument in which the mark of a later hole stands has
that mark replaced as well.

Nothing else can go wrong where no digit and no brace stands next to a hole (`Spaced`), as in all
messages of the catalogue: a mark then lies within the template or within one argument, because it
cannot go on from the one into the other. So each hole is replaced by its argument with the later
arguments filled in (`fillTemplate_eq_fillHoles`), and that is the argument itself if no mark of a
later hole stands in it.

Key definitions: `fillHoles`, `Spaced`, `Unmarked`, `fillAtOnce`.
Key theorems: `replaceMark_append`, `replaceMark_fillHoles`, `fillTemplate_eq_fillHoles`,
`fillTemplate_verbatim`.
-/
import Mathlib.Data.List.TakeWhile
import TypeResolution.TypeError

namespace TypeResolution

variable {count i j k : Nat} {c : Char} {mark text cs u v before rest : List Char}

/-! ### Marks -/

/-- The characters of the mark of a hole. -/
def isMarkChar (c : Char) : Bool := c.isDigit || c == '\x7b' || c == '\x7d'

theorem toList_hole (i : Nat) : (hole i).toList = '\x7b' :: (Nat.toDigits 10 i ++ ['\x7d']) := by
  simp [hole, Nat.toList_repr]

theorem isDigit_of_mem_toDigits (h : c ∈ Nat.toDigits 10 i) : c.isDigit = true :=
  Nat.isDigit_of_mem_toDigits (by decide) (by decide) h

theorem isMarkChar_of_mem_hole (h : c ∈ (hole i).toList) : isMarkChar c = true := by
  rw [toList_hole] at h
  simp only [List.mem_cons, List.mem_append, List.not_mem_nil, or_false] at h
  rcases h with rfl | h | rfl
  · decide
  · simp [isMarkChar, isDigit_of_mem_toDigits h]
  · decide

/-- The digits of a mark at the front of a text are those after its brace. -/
theorem takeWhile_of_hole_isPrefix (h : (hole i).toList <+: c :: cs) :
    cs.takeWhile Char.isDigit = Nat.toDigits 10 i := by
  rw [toList_hole, List.cons_prefix_cons] at h
  obtain ⟨-, more, rfl⟩ := h
  rw [List.append_assoc, List.takeWhile_append_of_pos fun d hd => isDigit_of_mem_toDigits hd]
  simp

/-- At most one mark stands at the front of a text. -/
theorem hole_unique (hi : (hole i).toList <+: cs) (hj : (hole j).toList <+: cs) : i = j := by
  cases cs with
  | nil =>
    rw [toList_hole] at hi
    simp at hi
  | cons c cs =>
    have hdigits := (takeWhile_of_hole_isPrefix hi).symm.trans (takeWhile_of_hole_isPrefix hj)
    have hvalue := congrArg (Nat.ofDigitChars 10 · 0) hdigits
    simpa [Nat.ofDigitChars_toDigits] using hvalue

/-! ### Replacing a mark -/

theorem replaceMark_of_not_isPrefix (h : ¬ mark <+: c :: cs) :
    replaceMark mark text (c :: cs) = c :: replaceMark mark text cs := by
  rw [replaceMark, if_neg (by simpa using h)]

theorem replaceMark_mark_append (hmark : mark ≠ []) :
    replaceMark mark text (mark ++ cs) = text ++ replaceMark mark text cs := by
  obtain ⟨m, marks, rfl⟩ := List.exists_cons_of_ne_nil hmark
  rw [List.cons_append, replaceMark, if_pos (by simp)]
  simp

/-- **A text may be split where no mark goes on from the first part into the second one.** -/
theorem replaceMark_append (hmark : mark ≠ [])
    (h : ∀ w, w <:+ u → mark <+: w ++ v → mark <+: w) :
    replaceMark mark text (u ++ v) = replaceMark mark text u ++ replaceMark mark text v := by
  -- Along the first part, which gets shorter by a character or by a whole mark.
  induction hn : u.length using Nat.strong_induction_on generalizing u with
  | _ n ih =>
    subst hn
    cases u with
    | nil => simp [replaceMark]
    | cons c u =>
      by_cases hfront : mark <+: c :: u
      · obtain ⟨more, hmore⟩ := hfront
        have hsuffix : more <:+ c :: u := ⟨mark, hmore⟩
        have hlength : more.length < (c :: u).length := by
          have := List.length_pos_iff.2 hmark
          rw [← hmore, List.length_append]
          omega
        have hrest := ih _ hlength (fun w hw => h w (hw.trans hsuffix)) rfl
        rw [← hmore, List.append_assoc, replaceMark_mark_append hmark,
          replaceMark_mark_append hmark, hrest, List.append_assoc]
      · have hfront' : ¬ mark <+: c :: (u ++ v) := fun hprefix =>
          hfront (h (c :: u) List.suffix_rfl hprefix)
        have hrest := ih _ (Nat.lt_succ_self _)
          (fun w hw => h w (hw.trans (List.suffix_cons _ _))) rfl
        rw [List.cons_append, replaceMark_of_not_isPrefix hfront',
          replaceMark_of_not_isPrefix hfront, hrest, List.cons_append]

/-- A text without the mark stays as it is. -/
theorem replaceMark_of_not_isInfix (h : ¬ mark <:+: cs) : replaceMark mark text cs = cs := by
  induction cs with
  | nil => rw [replaceMark]
  | cons c cs ih =>
    rw [replaceMark_of_not_isPrefix fun hprefix => h hprefix.isInfix,
      ih fun hinfix => h (List.IsInfix.trans hinfix (List.suffix_cons c cs).isInfix)]

/-- The mark of another hole stays as it is. -/
theorem replaceMark_hole_append (h : i ≠ k) :
    replaceMark (hole k).toList text ((hole i).toList ++ cs) =
      (hole i).toList ++ replaceMark (hole k).toList text cs := by
  have hother : ¬ (hole k).toList <+: (hole i).toList ++ cs := fun hprefix =>
    h (hole_unique (List.prefix_append _ _) hprefix)
  -- No mark begins with a digit or with a closing brace.
  have hinner : ∀ ds : List Char, (∀ d ∈ ds, d ≠ '\x7b') →
      replaceMark (hole k).toList text (ds ++ cs) = ds ++ replaceMark (hole k).toList text cs := by
    intro ds hds
    induction ds with
    | nil => rfl
    | cons d ds ih =>
      have hd : ¬ (hole k).toList <+: d :: (ds ++ cs) := by
        rw [toList_hole, List.cons_prefix_cons]
        exact fun hprefix => hds d List.mem_cons_self hprefix.1.symm
      rw [List.cons_append, replaceMark_of_not_isPrefix hd,
        ih fun d' hd' => hds d' (List.mem_cons_of_mem _ hd'), List.cons_append]
  rw [toList_hole i, List.cons_append] at hother ⊢
  rw [replaceMark_of_not_isPrefix hother, hinner, List.cons_append]
  intro d hd
  rcases List.mem_append.1 hd with hd | hd
  · rintro rfl
    cases isDigit_of_mem_toDigits hd
  · rw [List.mem_singleton.1 hd]
    decide

/-! ### Filling all holes at once -/

/-- The hole at the front of a text, if it is one of the first `count`. -/
def frontHole? (count : Nat) (cs : List Char) : Option Nat :=
  (List.range count).find? fun i => (hole i).toList.isPrefixOf cs

/-- Each of the first `count` holes is replaced by the text of its number, all of them at once. -/
def fillHoles (count : Nat) (f : Nat → List Char) : List Char → List Char
  | [] => []
  | c :: rest =>
    match frontHole? count (c :: rest) with
    | some i => f i ++ fillHoles count f (rest.drop ((hole i).toList.length - 1))
    | none => c :: fillHoles count f rest
termination_by s => s.length
decreasing_by all_goals (simp only [List.length_cons, List.length_drop]; omega)

theorem frontHole?_eq_some : frontHole? count cs = some i ↔ i < count ∧ (hole i).toList <+: cs := by
  unfold frontHole?
  constructor
  · intro h
    have hprefix := List.find?_some h
    exact ⟨List.mem_range.1 (List.mem_of_find?_eq_some h), List.isPrefixOf_iff_prefix.1 hprefix⟩
  · rintro ⟨hi, hprefix⟩
    cases hfound : (List.range count).find? fun i => (hole i).toList.isPrefixOf cs with
    | none =>
      have hnone := List.find?_eq_none.1 hfound i (List.mem_range.2 hi)
      exact absurd (List.isPrefixOf_iff_prefix.2 hprefix) hnone
    | some j =>
      have hj := List.find?_some (p := fun i => (hole i).toList.isPrefixOf cs) hfound
      rw [hole_unique (List.isPrefixOf_iff_prefix.1 hj) hprefix]

theorem frontHole?_eq_none :
    frontHole? count cs = none ↔ ∀ i < count, ¬ (hole i).toList <+: cs := by
  rw [Option.eq_none_iff_forall_ne_some]
  refine forall_congr' fun i => ?_
  rw [ne_eq, frontHole?_eq_some, not_and]

theorem frontHole?_of_ne (hc : c ≠ '\x7b') : frontHole? count (c :: cs) = none := by
  refine frontHole?_eq_none.2 fun i _ h => hc ?_
  rw [toList_hole, List.cons_prefix_cons] at h
  exact h.1.symm

variable {f g : Nat → List Char} {template : List Char}

theorem fillHoles_hole (hi : i < count) :
    fillHoles count f ((hole i).toList ++ cs) = f i ++ fillHoles count f cs := by
  have hfront : frontHole? count ((hole i).toList ++ cs) = some i :=
    frontHole?_eq_some.2 ⟨hi, List.prefix_append _ _⟩
  rw [toList_hole] at hfront ⊢
  rw [List.cons_append, fillHoles, ← List.cons_append, hfront]
  dsimp only
  rw [toList_hole]
  simp

theorem fillHoles_of_none (h : frontHole? count (c :: cs) = none) :
    fillHoles count f (c :: cs) = c :: fillHoles count f cs := by
  rw [fillHoles, h]

/-- Induction along the holes of a template and the characters between them. -/
theorem holes_induct (count : Nat) {motive : List Char → Prop} (nil : motive [])
    (hole : ∀ i cs, i < count → motive cs → motive ((hole i).toList ++ cs))
    (char : ∀ c cs, frontHole? count (c :: cs) = none → motive cs → motive (c :: cs)) :
    ∀ cs, motive cs := by
  intro cs
  induction hn : cs.length using Nat.strong_induction_on generalizing cs with
  | _ n ih =>
    subst hn
    cases cs with
    | nil => exact nil
    | cons c cs =>
      cases hfront : frontHole? count (c :: cs) with
      | none => exact char c cs hfront (ih _ (Nat.lt_succ_self _) cs rfl)
      | some i =>
        obtain ⟨hi, more, hmore⟩ := frontHole?_eq_some.1 hfront
        have hlength := congrArg List.length hmore
        rw [List.length_append, toList_hole, List.length_cons] at hlength
        rw [← hmore]
        exact hole i more hi (ih _ (by omega) more rfl)

theorem fillHoles_congr (h : ∀ i < count, f i = g i) (cs : List Char) :
    fillHoles count f cs = fillHoles count g cs := by
  induction cs using holes_induct count with
  | nil => rw [fillHoles, fillHoles]
  | hole i cs hi ih => rw [fillHoles_hole hi, fillHoles_hole hi, h i hi, ih]
  | char c cs hc ih => rw [fillHoles_of_none hc, fillHoles_of_none hc, ih]

/-- Holes that are replaced by themselves. -/
theorem fillHoles_hole_self (cs : List Char) :
    fillHoles count (fun i => (hole i).toList) cs = cs := by
  induction cs using holes_induct count with
  | nil => rw [fillHoles]
  | hole i cs hi ih => rw [fillHoles_hole hi, ih]
  | char c cs hc ih => rw [fillHoles_of_none hc, ih]

/-! ### Templates whose holes stand apart -/

/-- The text does not begin with a character of a mark. -/
def Apart (cs : List Char) : Prop := cs.head?.all (!isMarkChar ·) = true

instance : DecidablePred Apart := fun _ => inferInstanceAs (Decidable (_ = true))

/-- Next to the first `count` holes of the template stands neither a digit nor a brace. -/
def Spaced (count : Nat) (template : List Char) : Prop :=
  ∀ i < count, ∀ p < template.length, (hole i).toList <+: template.drop p →
    Apart (template.take p).reverse ∧ Apart (template.drop (p + (hole i).toList.length))

instance : Decidable (Spaced count template) :=
  inferInstanceAs (Decidable (∀ i < count, ∀ p < template.length, _ → _))

theorem Spaced.mono (h : Spaced count template) (hj : j ≤ count) : Spaced j template :=
  fun i hi => h i (hi.trans_le hj)

theorem Spaced.of_append (h : Spaced count (before ++ ((hole i).toList ++ rest))) (hi : i < count) :
    Apart before.reverse ∧ Apart rest := by
  have hprefix : (hole i).toList <+: (before ++ ((hole i).toList ++ rest)).drop before.length := by
    rw [List.drop_left]
    exact List.prefix_append _ _
  have hlt : before.length < (before ++ ((hole i).toList ++ rest)).length := by
    rw [List.length_append, List.length_append, toList_hole, List.length_cons]
    omega
  have happart := h i hi before.length hlt hprefix
  rwa [List.take_left, ← List.append_assoc, ← List.length_append, List.drop_left] at happart

theorem not_apart_cons (hc : isMarkChar c = true) : ¬ Apart (c :: cs) := by
  simp [Apart, hc]

/-- A template that begins with no character of a mark does so when it is filled. -/
theorem Apart.fillHoles (h : Apart cs) : Apart (fillHoles count f cs) := by
  cases cs with
  | nil => rwa [TypeResolution.fillHoles]
  | cons c cs =>
    have hc : c ≠ '\x7b' := by
      rintro rfl
      exact not_apart_cons (by decide) h
    rw [fillHoles_of_none (frontHole?_of_ne hc)]
    exact h

/-- Characters of a mark do not go on into a text that begins with none. -/
theorem isPrefix_of_apart (hmark : ∀ m ∈ mark, isMarkChar m = true) (hv : Apart v) :
    ∀ {u : List Char}, mark <+: u ++ v → mark <+: u := by
  induction mark with
  | nil => exact fun _ => List.nil_prefix
  | cons m mark ih =>
    intro u h
    cases u with
    | nil =>
      cases v with
      | nil => simp at h
      | cons c v =>
        rw [List.nil_append, List.cons_prefix_cons] at h
        exact absurd hv (h.1 ▸ not_apart_cons (hmark m List.mem_cons_self))
    | cons c u =>
      rw [List.cons_append, List.cons_prefix_cons] at h
      exact List.cons_prefix_cons.2
        ⟨h.1, ih (fun d hd => hmark d (List.mem_cons_of_mem _ hd)) h.2⟩

/-- Behind a character of a mark, characters of a mark are those of the template. -/
theorem Spaced.isPrefix_of_fillHoles : ∀ {mark : List Char} (before : List Char) {rest : List Char},
    Spaced count (before ++ rest) → ¬ Apart before.reverse → (∀ m ∈ mark, isMarkChar m = true) →
    mark <+: fillHoles count f rest → mark <+: rest
  | [], _, _, _, _, _, _ => List.nil_prefix
  | m :: mark, before, rest, hspaced, hbefore, hmark, h => by
    cases rest with
    | nil =>
      rw [fillHoles] at h
      simp at h
    | cons c rest =>
      cases hfront : frontHole? count (c :: rest) with
      | some i =>
        obtain ⟨hi, more, hmore⟩ := frontHole?_eq_some.1 hfront
        rw [← hmore] at hspaced
        exact absurd (hspaced.of_append hi).1 hbefore
      | none =>
        rw [fillHoles_of_none hfront, List.cons_prefix_cons] at h
        obtain ⟨rfl, h⟩ := h
        have hm := hmark m List.mem_cons_self
        refine List.cons_prefix_cons.2 ⟨rfl, ?_⟩
        refine Spaced.isPrefix_of_fillHoles (before ++ [m]) ?_ ?_
          (fun d hd => hmark d (List.mem_cons_of_mem _ hd)) h
        · rwa [List.append_assoc]
        · rw [List.reverse_append]
          exact not_apart_cons hm

/-! ### Filling one hole after the other -/

/-- What the replacement of one mark makes of the texts in the holes: the text that replaces it is
in its hole, and it is replaced in the texts before. -/
def replaceIn (k : Nat) (text : List Char) (f : Nat → List Char) (i : Nat) : List Char :=
  if i < k then replaceMark (hole k).toList text (f i) else if i = k then text else f i

/-- **Replacing one mark in a filled template.** The later holes are still to be filled. -/
theorem replaceMark_fillHoles (hk : k < count) (hf : ∀ i, k ≤ i → f i = (hole i).toList) :
    ∀ {rest before : List Char}, Spaced count (before ++ rest) →
      replaceMark (hole k).toList text (fillHoles count f rest) =
        fillHoles count (replaceIn k text f) rest := by
  have hne : (hole k).toList ≠ [] := by simp [toList_hole]
  intro rest
  induction rest using holes_induct count with
  | nil =>
    intro before _
    rw [fillHoles, fillHoles, replaceMark]
  | hole i rest hi ih =>
    intro before hspaced
    have hapart := (hspaced.of_append hi).2
    rw [← List.append_assoc] at hspaced
    rw [fillHoles_hole hi, fillHoles_hole hi, ← ih hspaced]
    unfold replaceIn
    rcases Nat.lt_trichotomy i k with hlt | rfl | hgt
    · rw [if_pos hlt]
      exact replaceMark_append hne fun w _ =>
        isPrefix_of_apart (fun m hm => isMarkChar_of_mem_hole hm) hapart.fillHoles
    · rw [if_neg (Nat.lt_irrefl _), if_pos rfl, hf _ (Nat.le_refl _), replaceMark_mark_append hne]
    · rw [if_neg (by omega), if_neg (by omega), hf _ (by omega), replaceMark_hole_append (by omega)]
  | char c rest hc ih =>
    intro before hspaced
    have hother : ¬ (hole k).toList <+: c :: fillHoles count f rest := by
      intro h
      refine frontHole?_eq_none.1 hc k hk ?_
      have hchars := fun m (hm : m ∈ (hole k).toList) => isMarkChar_of_mem_hole hm
      rw [toList_hole] at h hchars ⊢
      obtain ⟨rfl, htail⟩ := List.cons_prefix_cons.1 h
      refine List.cons_prefix_cons.2 ⟨rfl, ?_⟩
      refine Spaced.isPrefix_of_fillHoles (before ++ ['\x7b']) ?_ ?_
        (fun d hd => hchars d (List.mem_cons_of_mem _ hd)) htail
      · rwa [List.append_assoc]
      · rw [List.reverse_append]
        exact not_apart_cons (by decide)
    rw [List.append_cons] at hspaced
    rw [fillHoles_of_none hc, fillHoles_of_none hc, replaceMark_of_not_isPrefix hother, ih hspaced]

/-- A text with none of the marks that are to be replaced stays as it is. -/
theorem fillFrom_of_not_isInfix (args : List String) :
    ∀ {k : Nat}, (∀ j, k ≤ j → j < k + args.length → ¬ (hole j).toList <:+: cs) →
      fillFrom k cs args = cs := by
  induction args with
  | nil => exact fun _ => rfl
  | cons arg args ih =>
    intro k h
    rw [List.length_cons] at h
    rw [fillFrom, replaceMark_of_not_isInfix (h k (Nat.le_refl _) (by omega))]
    exact ih fun j hk hj => h j (by omega) (by omega)

/-- Filling the holes from `k` on in a template whose holes before `k` are filled already. -/
theorem fillFrom_fillHoles (args : List String) :
    ∀ {k : Nat} {f : Nat → List Char}, Spaced (k + args.length) template →
      (∀ i, k ≤ i → f i = (hole i).toList) →
      fillFrom k (fillHoles (k + args.length) f template) args =
        fillHoles (k + args.length) (fun i =>
          if i < k then fillFrom k (f i) args
          else fillFrom (i + 1) (args[i - k]?.getD "").toList (args.drop (i - k + 1)))
          template := by
  induction args with
  | nil =>
    intro k f _ _
    refine fillHoles_congr (fun i hi => ?_) template
    rw [List.length_nil, Nat.add_zero] at hi
    rw [if_pos hi, fillFrom]
  | cons arg args ih =>
    intro k f hspaced hf
    have hcount : k + (arg :: args).length = k + 1 + args.length := by
      rw [List.length_cons]
      omega
    rw [hcount] at hspaced ⊢
    have hlater : ∀ i, k + 1 ≤ i → replaceIn k arg.toList f i = (hole i).toList := by
      intro i hi
      rw [replaceIn, if_neg (by omega), if_neg (by omega), hf i (by omega)]
    have hall : Spaced (k + 1 + args.length) ([] ++ template) := hspaced
    rw [fillFrom, replaceMark_fillHoles (by omega) hf hall, ih hspaced hlater]
    refine fillHoles_congr (fun i _ => ?_) template
    rcases Nat.lt_trichotomy i k with hlt | rfl | hgt
    · rw [if_pos (by omega), if_pos hlt, replaceIn, if_pos hlt, fillFrom]
    · rw [if_pos (by omega), if_neg (Nat.lt_irrefl _), replaceIn, if_neg (Nat.lt_irrefl _),
        if_pos rfl, Nat.sub_self]
      rfl
    · obtain ⟨m, rfl⟩ := Nat.exists_eq_add_of_lt hgt
      rw [if_neg (by omega), if_neg (by omega), show k + m + 1 - (k + 1) = m by omega,
        show k + m + 1 - k = m + 1 by omega, List.getElem?_cons_succ, List.drop_succ_cons]

/-! ### Verbatim arguments -/

/-- The template with each hole replaced by its argument, all at once. -/
def fillAtOnce (template : String) (args : List String) : String :=
  String.ofList (fillHoles args.length (fun i => (args[i]?.getD "").toList) template.toList)

/-- In no argument stands the mark of a later hole. -/
def Unmarked (args : List String) : Prop :=
  ∀ i < args.length, ∀ j < args.length, i < j →
    ¬ (hole j).toList <:+: (args[i]?.getD "").toList

instance (args : List String) : Decidable (Unmarked args) :=
  inferInstanceAs (Decidable (∀ i < args.length, ∀ j < args.length, _ → _))

/-- **Each hole is replaced by its argument, in which the later arguments are filled in.** -/
theorem fillTemplate_eq_fillHoles (template : String) (args : List String)
    (h : Spaced args.length template.toList) :
    fillTemplate template args = String.ofList (fillHoles args.length (fun i =>
      fillFrom (i + 1) (args[i]?.getD "").toList (args.drop (i + 1))) template.toList) := by
  rw [← Nat.zero_add args.length] at h
  have hfilled := fillFrom_fillHoles args h fun i _ => rfl
  rw [fillHoles_hole_self, Nat.zero_add] at hfilled
  exact congrArg String.ofList hfilled

theorem fillTemplate_of_unmarked {template : String} {args : List String}
    (hspaced : Spaced args.length template.toList) (hargs : Unmarked args) :
    fillTemplate template args = fillAtOnce template args := by
  rw [fillTemplate_eq_fillHoles template args hspaced, fillAtOnce]
  refine congrArg String.ofList (fillHoles_congr (fun i hi => ?_) _)
  refine fillFrom_of_not_isInfix _ fun j hij hj => hargs i hi j ?_ (by omega)
  rw [List.length_drop] at hj
  omega

namespace Message

/-- No message has a digit or a brace next to a hole. -/
theorem spaced_of_mem_catalogue : ∀ m ∈ catalogue, Spaced 3 m.template.toList := by
  decide +kernel

theorem fill_of_unmarked {m : Message} {args : List String} (hm : m ∈ catalogue)
    (hlength : args.length ≤ 3) (hargs : Unmarked args) :
    m.fill args = fillAtOnce m.template args :=
  fillTemplate_of_unmarked ((spaced_of_mem_catalogue m hm).mono hlength) hargs

end Message

namespace TypeError

theorem message_mem_catalogue (names : NameTable) (e : TypeError) :
    (e.message names).1 ∈ Message.catalogue := by
  cases e with
  | mismatch fit => cases fit <;> simp [message, Message.catalogue]
  | ambiguous name => cases name <;> simp [message, Message.catalogue]
  | stopped reason => cases reason <;> simp [message, Message.catalogue]
  | _ => simp [message, Message.catalogue]

theorem length_message_le (names : NameTable) (e : TypeError) :
    (e.message names).2.length ≤ 2 := by
  unfold message
  split <;> simp

theorem text_diagnose (names : NameTable) (e : TypeError) :
    (e.diagnose names).text = (e.message names).1.fill (e.message names).2 := by
  have hnotes : ∀ (notes : List Diagnostic) (d : Diagnostic),
      (notes.foldl Diagnostic.withNote d).text = d.text := by
    intro notes
    induction notes with
    | nil => exact fun _ => rfl
    | cons note notes ih => exact fun d => ih (d.withNote note)
  exact hnotes _ _

theorem related_diagnose (names : NameTable) (e : TypeError) :
    (e.diagnose names).related = e.notes names := by
  have hnotes : ∀ (notes : List Diagnostic) (d : Diagnostic),
      (notes.foldl Diagnostic.withNote d).related = d.related ++ notes := by
    intro notes
    induction notes with
    | nil => exact fun d => (List.append_nil _).symm
    | cons note notes ih =>
      intro d
      rw [List.foldl_cons, ih]
      exact List.append_assoc d.related [note] notes
  exact (hnotes _ _).trans (List.nil_append _)

/-- A note is a message of the catalogue as well. -/
theorem note_of_mem_notes {names : NameTable} {e : TypeError} {note : Diagnostic}
    (h : note ∈ e.notes names) :
    ∃ l m args, m ∈ Message.catalogue ∧ args.length ≤ 3 ∧ note = .ofMessage l m args := by
  unfold notes at h
  split at h
  · obtain ⟨r, -, rfl⟩ := List.mem_map.1 h
    exact ⟨_, .candidateRejected, _, by simp [Message.catalogue], by simp, rfl⟩
  · obtain ⟨⟨decl, t⟩, -, rfl⟩ := List.mem_map.1 h
    exact ⟨_, .candidateFound, _, by simp [Message.catalogue], by simp, rfl⟩
  · cases h

end TypeError

/-- **What a filled template says.** In a template whose holes stand apart each hole is replaced by
its argument, in which the later holes are filled as well. So the arguments stand there verbatim if
in none of them stands the mark of a later hole: in every message of the catalogue, in every error
that is told, and in every note on it. -/
theorem fillTemplate_verbatim (template : String) (args : List String) (names : NameTable)
    (e : TypeError) :
    (Spaced args.length template.toList →
      fillTemplate template args = String.ofList (fillHoles args.length (fun i =>
          fillFrom (i + 1) (args[i]?.getD "").toList (args.drop (i + 1))) template.toList) ∧
        (Unmarked args → fillTemplate template args = fillAtOnce template args)) ∧
      (∀ m ∈ Message.catalogue, args.length ≤ 3 → Unmarked args →
        m.fill args = fillAtOnce m.template args) ∧
      (Unmarked (e.message names).2 →
        (e.diagnose names).text = fillAtOnce (e.message names).1.template (e.message names).2) ∧
      ∀ note ∈ (e.diagnose names).related, ∃ l m args,
        m ∈ Message.catalogue ∧ note = .ofMessage l m args ∧
          (Unmarked args → note.text = fillAtOnce m.template args) := by
  refine ⟨fun hspaced => ⟨fillTemplate_eq_fillHoles template args hspaced,
    fillTemplate_of_unmarked hspaced⟩, fun m hm => Message.fill_of_unmarked hm, ?_, ?_⟩
  · intro hargs
    have hlength := (e.length_message_le names).trans (show 2 ≤ 3 by decide)
    rw [e.text_diagnose]
    exact Message.fill_of_unmarked (e.message_mem_catalogue names) hlength hargs
  · intro note hnote
    rw [e.related_diagnose] at hnote
    obtain ⟨l, m, args, hm, hlength, rfl⟩ := TypeError.note_of_mem_notes hnote
    exact ⟨l, m, args, hm, rfl, Message.fill_of_unmarked hm hlength⟩

/-- A name with a mark in it is told as it is, where the mark is that of no later hole. -/
theorem fillTemplate_verbatim_marked :
    let (name, names) := NameTable.empty.intern "f\x7b0\x7d"
    let e := TypeError.missingMember .error name none
    let (m, args) := e.message names
    Spaced args.length m.template.toList ∧ Unmarked args ∧
      fillTemplate m.template args = fillAtOnce m.template args ∧
      (e.diagnose names).text = fillAtOnce m.template args := by
  let e := TypeError.missingMember .error ⟨0⟩ none
  let names := (NameTable.empty.intern "f\x7b0\x7d").2
  have hspaced : Spaced (e.message names).2.length (e.message names).1.template.toList := by
    decide +kernel
  have hargs : Unmarked (e.message names).2 := by decide +kernel
  obtain ⟨hfilled, -, htext, -⟩ := fillTemplate_verbatim _ (e.message names).2 names e
  exact ⟨hspaced, hargs, (hfilled hspaced).2 hargs, htext hargs⟩

/-- In the name of an overloaded reference the number of its candidates replaces a mark. -/
theorem fillTemplate_verbatim_replaced :
    let (name, names) := NameTable.empty.intern "f\x7b1\x7d"
    let e := TypeError.noViableCandidate name [⟨⟨1⟩, .error, .malformed "" none⟩] none
    (e.diagnose names).text = "No viable candidate for 'f1' among 1 declarations." ∧
      fillAtOnce (e.message names).1.template (e.message names).2 =
        "No viable candidate for 'f\x7b1\x7d' among 1 declarations." := by
  constructor <;> decide +kernel

end TypeResolution
