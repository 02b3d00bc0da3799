/-
Dncl/Proofs/Integers.lean

Integer literals denote their exact value.

A run of digits, however long, ASCII and full-width in any mix and with any
zeros before it, is read whole:

    d₁d₂…dₖ  ↦  the integer n          if n ≤ 2⁶³ - 1
                "integer too large"     otherwise,

with `n` the number of the decimal digits `d₁, …, dₖ`.  Either way the span is
the run and nothing else.

Design.  The digits are the characters of `digitForms`, and a run ends where
none of them follows; the scanner's own test of a character agrees with that
list (`isDigit_iff`).  The count that the scanner keeps is related to the value
in `Dncl.Proofs.Digits`.
-/
import Dncl.Proofs.Tandem
import Dncl.Proofs.Variants

namespace Dncl

variable {c : Char} {d : Nat}

/-! ### Digits -/

theorem mem_digitForms_of_digitValue? (h : digitValue? c = some d) :
    d < 10 ∧ c ∈ digitForms d := by
  have hascii : ∀ d < 10, Char.ofNat (48 + d) ∈ digitForms d := by decide
  have hwide : ∀ d < 10, Char.ofNat (65296 + d) ∈ digitForms d := by decide
  rw [digitValue?] at h
  rw [← Char.ofNat_toNat c]
  split at h
  · rename_i hrange
    have hlow : 48 ≤ c.toNat := hrange.1
    have hhigh : c.toNat ≤ 57 := hrange.2
    obtain rfl : c.toNat - 48 = d := Option.some.inj h
    have hdigit : c.toNat - 48 < 10 := by omega
    have hform := hascii _ hdigit
    rw [Nat.add_sub_of_le hlow] at hform
    exact ⟨hdigit, hform⟩
  · split at h
    · rename_i hrange
      have hlow : 65296 ≤ c.toNat := hrange.1
      have hhigh : c.toNat ≤ 65305 := hrange.2
      obtain rfl : c.toNat - 65296 = d := Option.some.inj h
      have hdigit : c.toNat - 65296 < 10 := by omega
      have hform := hwide _ hdigit
      rw [Nat.add_sub_of_le hlow] at hform
      exact ⟨hdigit, hform⟩
    · cases h

/-- The digits are the characters that stand in the list. -/
theorem isDigit_iff : isDigit c = true ↔ ∃ d < 10, c ∈ digitForms d := by
  constructor
  · intro h
    obtain ⟨d, hd⟩ := Option.isSome_iff_exists.1 h
    exact ⟨d, mem_digitForms_of_digitValue? hd⟩
  · rintro ⟨d, -, hd⟩
    rw [isDigit, digitValue?_of_form hd]
    rfl

/-! ### Integers -/

theorem natCast_le_maxInt (n : Nat) : (n : Int) ≤ Text.maxInt ↔ n ≤ 2 ^ 63 - 1 := by
  rw [Text.maxInt]
  omega

/-- **Integer literals are exact.**  Before any run of digits that no digit
follows, the scanner finds the integer with these digits, or that it is too
large, which it is from `2 ^ 63` on.  It has passed the run and nothing more,
and what it points at is the run. -/
theorem Scanner.readInteger_denotes {s : Scanner} {before run tail : List Char} {ds : List Nat}
    (hpos : s.pos = Text.byteSize before) (hrest : s.rest = run ++ tail)
    (hrun : ds.Forall₂ (fun d c => c ∈ digitForms d) run)
    (htail : ∀ c ∈ tail.head?, ∀ d < 10, c ∉ digitForms d) :
    let span : Span := ⟨s.pos, s.pos + Text.byteSize run⟩
    s.readInteger =
        (if ofDecimal ds ≤ 2 ^ 63 - 1 then .ok ⟨.int (ofDecimal ds), span⟩
          else .error ⟨.integerTooLarge, span⟩,
        { s with rest := tail, pos := span.stop }) ∧
      Text.slice? (before ++ s.rest) span.start span.stop = some run ∧
      ∀ c cs, run = c :: cs → s.readToken c (cs ++ tail) = s.readInteger := by
  have hdigits : ∀ c ∈ run, isDigit c = true := isDigit_of_forms hrun
  have hstop : ∀ c ∈ tail.head?, isDigit c = false := by
    intro c hc
    rw [Bool.eq_false_iff, ne_eq, isDigit_iff]
    rintro ⟨d, hten, hd⟩
    exact htail c hc d hten hd
  refine ⟨?_, ?_, ?_⟩
  · rw [readInteger_eq, hrest, readDigits_run hdigits hstop, digitsValue_of_forms hrun]
    simp only [natCast_le_maxInt]
    split <;> rfl
  · rw [hpos, hrest]
    exact Text.slice?_byteSize before run tail
  · rintro c cs rfl
    exact readToken_digit (hdigits c List.mem_cons_self) s _

/-- The greatest integer with zeros before it, its first and last digits full-width,
and the number behind it. -/
theorem Scanner.readInteger_denotes_limit :
    (Scanner.ofText "0０９22337203685477580７+1").readInteger =
        (.ok ⟨.int 9223372036854775807, ⟨0, 27⟩⟩,
          { Scanner.ofText "+1" with pos := 27 }) ∧
      (Scanner.ofText "0０９22337203685477580８+1").readInteger =
        (.error ⟨.integerTooLarge, ⟨0, 27⟩⟩, { Scanner.ofText "+1" with pos := 27 }) := by
  have htail : ∀ c ∈ ['+', '1'].head?, ∀ d < 10, c ∉ digitForms d := by
    rintro c ⟨⟩
    decide
  exact ⟨(@readInteger_denotes (Scanner.ofText "0０９22337203685477580７+1") []
      "0０９22337203685477580７".toList ['+', '1']
      [0, 0, 9, 2, 2, 3, 3, 7, 2, 0, 3, 6, 8, 5, 4, 7, 7, 5, 8, 0, 7]
      rfl (by decide) (by decide) htail).1,
    (@readInteger_denotes (Scanner.ofText "0０９22337203685477580８+1") []
      "0０９22337203685477580８".toList ['+', '1']
      [0, 0, 9, 2, 2, 3, 3, 7, 2, 0, 3, 6, 8, 5, 4, 7, 7, 5, 8, 0, 8]
      rfl (by decide) (by decide) htail).1⟩

end Dncl
