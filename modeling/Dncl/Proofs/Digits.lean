/-
Dncl/Proofs/Digits.lean

The value of an integer literal, beside the count that never leaves the range of
a program's integers.

    tally of the digits of n  =  n             if n ≤ maxInt
                                 overflow      otherwise

Design.  `digitsValue` is the number that a run of digits denotes, however long
the run.  `Tally.Counts` relates the bounded count to it: the count has
overflowed exactly when the number is beyond the range, and is the number as
long as it has not.  One digit more keeps this (`Tally.Counts.push`), since a
number that is too large stays so whatever digits follow; a run keeps it by
induction.  `readInteger_eq` then reads an integer by its value.
-/
import Dncl.Token.Stepping

namespace Dncl

/-! ### The number that digits denote -/

/-- The number that a run of digits denotes. -/
def digitsValue (cs : List Char) : Nat :=
  cs.foldl (fun n c => n * 10 + (digitValue? c).getD 0) 0

/-- The longest run of digits, and the number that it denotes. -/
def readDigits (cs : List Char) : Reading Nat :=
  ⟨digitsValue (cs.takeWhile isDigit), cs.takeWhile isDigit, cs.dropWhile isDigit⟩

/-- A run of digits is read whole, if no digit follows. -/
theorem readDigits_run {cs tail : List Char} (hcs : ∀ c ∈ cs, isDigit c = true)
    (htail : ∀ c ∈ tail.head?, isDigit c = false) :
    readDigits (cs ++ tail) = ⟨digitsValue cs, cs, tail⟩ := by
  have htake : tail.takeWhile isDigit = [] ∧ tail.dropWhile isDigit = tail := by
    cases tail with
    | nil => exact ⟨rfl, rfl⟩
    | cons c tail =>
      have hc : ¬isDigit c = true := by simp [htail c rfl]
      exact ⟨List.takeWhile_cons_of_neg hc, List.dropWhile_cons_of_neg hc⟩
  rw [readDigits, List.takeWhile_append_of_pos hcs, List.dropWhile_append_of_pos hcs,
    htake.1, htake.2, List.append_nil]

/-! ### The count of the digits -/

namespace Tally

variable {t : Tally} {n : Nat}

/-- The digits that `t` has counted denote `n`. -/
structure Counts (t : Tally) (n : Nat) : Prop where
  overflow : t.overflow = true ↔ Text.maxInt < n
  value : t.overflow = false → t.value = n

theorem counts_zero : Counts {} 0 :=
  ⟨by decide, fun _ => rfl⟩

theorem push_overflow (h : t.overflow = true) (d : Nat) : (t.push d).overflow = true := by
  rw [push]
  split
  · exact h
  · rfl

/-- A natural number is kept exactly if it is not beyond the greatest integer. -/
theorem checked_natCast (n : Nat) :
    Text.checked n = if (n : Int) ≤ Text.maxInt then some (n : Int) else none := by
  have hlow : Text.minInt ≤ n := Int.le_trans (by decide) (Int.natCast_nonneg n)
  simp only [Text.checked, hlow, true_and]

theorem push_of_counted (hvalue : t.value = n) (d : Nat) :
    t.push d = if ((n * 10 + d : Nat) : Int) ≤ Text.maxInt
      then { t with value := (n * 10 + d : Nat) } else { t with overflow := true } := by
  have htens : t.value * 10 = ((n * 10 : Nat) : Int) := by rw [hvalue]; rfl
  rw [push, htens, checked_natCast]
  by_cases hfits : ((n * 10 + d : Nat) : Int) ≤ Text.maxInt
  · -- there is room for the digit, and so for the tens alone
    have htensFit : ((n * 10 : Nat) : Int) ≤ Text.maxInt := by omega
    rw [if_pos htensFit, Option.bind_some, ← Int.natCast_add, checked_natCast, if_pos hfits,
      if_pos hfits]
  · rw [if_neg hfits]
    by_cases htensFit : ((n * 10 : Nat) : Int) ≤ Text.maxInt
    · rw [if_pos htensFit, Option.bind_some, ← Int.natCast_add, checked_natCast, if_neg hfits]
    · rw [if_neg htensFit, Option.bind_none]

/-- One digit more: the count follows the number. -/
theorem Counts.push (h : t.Counts n) (d : Nat) : (t.push d).Counts (n * 10 + d) := by
  by_cases hover : t.overflow = true
  · -- too large already, and larger with the digit
    have hlarge := h.overflow.1 hover
    have hpush := push_overflow hover d
    exact ⟨iff_of_true hpush (by omega), by simp [hpush]⟩
  · have hfits : t.overflow = false := Bool.eq_false_iff.2 hover
    rw [push_of_counted (h.value hfits)]
    split
    · rename_i hmax
      exact ⟨iff_of_false hover (Int.not_lt.2 hmax), fun _ => rfl⟩
    · rename_i hmax
      exact ⟨iff_of_true rfl (Int.not_le.1 hmax), by simp⟩

theorem Counts.foldl (h : t.Counts n) (cs : List Char) :
    (cs.foldl (fun t c => t.push ((digitValue? c).getD 0)) t).Counts
      (cs.foldl (fun n c => n * 10 + (digitValue? c).getD 0) n) := by
  induction cs generalizing t n with
  | nil => exact h
  | cons c cs ih => exact ih (h.push _)

/-- A run of digits is counted up to the number that it denotes. -/
theorem counts_tally (cs : List Char) : (tally cs).Counts (digitsValue cs) :=
  counts_zero.foldl cs

end Tally

/-! ### Reading an integer -/

/-- An integer that is kept is in the range. -/
theorem value_readTally {cs : List Char} (h : (readTally cs).value.overflow = false) :
    0 ≤ (readTally cs).value.value ∧ (readTally cs).value.value ≤ Text.maxInt := by
  have hcounts := Tally.counts_tally (cs.takeWhile isDigit)
  have hvalue : (readTally cs).value.value = digitsValue (cs.takeWhile isDigit) := hcounts.value h
  have hmax := mt hcounts.overflow.2 (Bool.eq_false_iff.1 h)
  omega

namespace Scanner

/-- An integer is read by the number that its digits denote. -/
theorem readInteger_eq (s : Scanner) :
    s.readInteger =
      if ((readDigits s.rest).value : Int) ≤ Text.maxInt then
        (.ok ⟨.int (readDigits s.rest).value, s.spanTo (s.after (readDigits s.rest))⟩,
          s.after (readDigits s.rest))
      else
        (.error ⟨.integerTooLarge, s.spanTo (s.after (readDigits s.rest))⟩,
          s.after (readDigits s.rest)) := by
  have hcounts := Tally.counts_tally (s.rest.takeWhile isDigit)
  by_cases hmax : (digitsValue (s.rest.takeWhile isDigit) : Int) ≤ Text.maxInt
  · have hfits : (tally (s.rest.takeWhile isDigit)).overflow = false :=
      Bool.eq_false_iff.2 fun hover => absurd (hcounts.overflow.1 hover) (by omega)
    simp only [readInteger, readTally, readDigits, hfits, hcounts.value hfits, hmax, if_true]
    rfl
  · have hover : (tally (s.rest.takeWhile isDigit)).overflow = true :=
      hcounts.overflow.2 (by omega)
    simp only [readInteger, readTally, readDigits, hover, hmax, if_false, if_true]
    rfl

end Scanner

end Dncl
