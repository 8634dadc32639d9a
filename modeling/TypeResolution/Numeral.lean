/-
# Decimal numerals

The numbers that ASCII digits write. Leading zeros change nothing, and there is no limit: what
a numeral may be at most is up to its reader.

Key definitions: `digitValue`, `decimalValue`, `decimal?`, `unsigned?`.
Key theorems: `decimalValue_append`, `decimalValue_zeros`.
-/
namespace TypeResolution

def digitValue (d : Char) : Nat := d.toNat - '0'.toNat

/-- The number that decimal digits write. -/
def decimalValue (ds : List Char) : Nat := ds.foldl (fun n d => 10 * n + digitValue d) 0

/-- The number that characters write if all of them are digits and there is at least one. -/
def decimal? (cs : List Char) : Option Nat :=
  if !cs.isEmpty && cs.all Char.isDigit then some (decimalValue cs) else none

/-- The number that a text of digits writes; a plus sign may stand in front. -/
def unsigned? (text : String) : Option Nat :=
  match text.toList with
  | '+' :: cs => decimal? cs
  | cs => decimal? cs

theorem foldl_digitValue (ds : List Char) (n : Nat) :
    ds.foldl (fun n d => 10 * n + digitValue d) n = n * Nat.pow 10 ds.length + decimalValue ds := by
  unfold decimalValue
  induction ds generalizing n with
  | nil => simp
  | cons d ds ih =>
    rw [List.foldl_cons, List.foldl_cons, ih, ih (10 * 0 + digitValue d), List.length_cons,
      Nat.pow_eq, Nat.pow_eq, Nat.pow_succ, Nat.mul_zero, Nat.zero_add, Nat.add_mul, Nat.add_assoc]
    congr 1
    rw [Nat.mul_comm 10 n, Nat.mul_assoc, Nat.mul_comm 10]

/-- Digits behind others move them up by their number. -/
theorem decimalValue_append (ds es : List Char) :
    decimalValue (ds ++ es) = decimalValue ds * Nat.pow 10 es.length + decimalValue es := by
  rw [← foldl_digitValue]
  simp [decimalValue, List.foldl_append]

/-- Leading zeros change nothing. -/
theorem decimalValue_zeros (count : Nat) (ds : List Char) :
    decimalValue (List.replicate count '0' ++ ds) = decimalValue ds := by
  have zero : ∀ count, decimalValue (List.replicate count '0') = 0 := by
    intro count
    induction count with
    | zero => rfl
    | succ count ih =>
      rw [List.replicate_succ', decimalValue_append, ih, Nat.zero_mul, Nat.zero_add]
      rfl
  rw [decimalValue_append, zero, Nat.zero_mul, Nat.zero_add]

end TypeResolution
