/-
Dncl/Text/Utf8.lean

Offsets in UTF-8: sizes and slices of a text in bytes, and decoding.

Offsets that fall inside a character, or past the end, are no boundaries of
the text; slicing there gives nothing.  Decoding tells a sequence of bytes
that can never be text from one that merely ends too early.
-/

namespace Dncl.Text

variable {bytes rest : List UInt8}

/-- The number of bytes of a text in UTF-8. -/
def byteSize (cs : List Char) : Nat :=
  (cs.map Char.utf8Size).foldr (· + ·) 0

/-- The text after its first `n` bytes. -/
def dropBytes? (n : Nat) : List Char → Option (List Char)
  | [] => if n = 0 then some [] else none
  | c :: cs =>
    if n = 0 then some (c :: cs)
    else if c.utf8Size ≤ n then dropBytes? (n - c.utf8Size) cs
    else none

/-- The first `n` bytes of the text. -/
def takeBytes? (n : Nat) : List Char → Option (List Char)
  | [] => if n = 0 then some [] else none
  | c :: cs =>
    if n = 0 then some []
    else if c.utf8Size ≤ n then (takeBytes? (n - c.utf8Size) cs).map (c :: ·)
    else none

/-- The bytes from `start` up to `stop`, if both are boundaries in order. -/
def slice? (cs : List Char) (start stop : Nat) : Option (List Char) :=
  if start ≤ stop then (dropBytes? start cs).bind (takeBytes? (stop - start)) else none

/-! ### Decoding -/

/-- Why bytes are not a text. -/
inductive Utf8Fault where
  /-- Some byte cannot stand where it stands. -/
  | malformed
  /-- The bytes end inside a character. -/
  | truncated
  deriving DecidableEq

/-- The six bits that a continuation byte carries. -/
def tailBits (b : UInt8) : Option Nat :=
  if b.toNat / 64 = 2 then some (b.toNat % 64) else none

/-- The character of a code point that took `size` bytes, if that is its
shortest form and it is a character at all. -/
def decodedChar? (n size : Nat) : Option Char :=
  if h : n.isValidChar then
    let c := Char.ofNatAux n h
    if c.utf8Size = size then some c else none
  else none

/-- Reads `k` continuation bytes onto the bits `acc`, and gives the code point
with the bytes that follow. -/
def tailBytes : Nat → Nat → List UInt8 → Except Utf8Fault (Nat × List UInt8)
  | 0, acc, bytes => .ok (acc, bytes)
  | _ + 1, _, [] => .error .truncated
  | k + 1, acc, b :: bytes =>
    match tailBits b with
    | some bits => tailBytes k (acc * 64 + bits) bytes
    | none => .error .malformed

/-- How many bytes follow a leading byte, and the bits that it carries. -/
def leadBits (b : UInt8) : Option (Nat × Nat) :=
  let n := b.toNat
  if n < 0x80 then some (0, n)
  else if n / 32 = 6 then some (1, n % 32)
  else if n / 16 = 14 then some (2, n % 16)
  else if n / 8 = 30 then some (3, n % 8)
  else none

/-- Decodes one character. -/
def decodeChar (lead : UInt8) (bytes : List UInt8) : Except Utf8Fault (Char × List UInt8) :=
  match leadBits lead with
  | none => .error .malformed
  | some (k, bits) =>
    match tailBytes k bits bytes with
    | .error fault => .error fault
    | .ok (n, rest) =>
      match decodedChar? n (k + 1) with
      | some c => .ok (c, rest)
      | none => .error .malformed

theorem length_of_tailBytes {k acc : Nat} {n : Nat} (h : tailBytes k acc bytes = .ok (n, rest)) :
    rest.length ≤ bytes.length := by
  induction k generalizing acc bytes with
  | zero =>
    simp only [tailBytes, Except.ok.injEq, Prod.mk.injEq] at h
    exact Nat.le_of_eq (congrArg List.length h.2.symm)
  | succ k ih =>
    cases bytes with
    | nil => simp [tailBytes] at h
    | cons b bytes =>
      simp only [tailBytes] at h
      split at h
      · exact Nat.le_succ_of_le (ih h)
      · simp at h

theorem length_of_decodeChar {lead : UInt8} {c : Char} (h : decodeChar lead bytes = .ok (c, rest)) :
    rest.length ≤ bytes.length := by
  simp only [decodeChar] at h
  split at h
  · simp at h
  · split at h
    · simp at h
    · rename_i hk
      split at h
      · simp only [Except.ok.injEq, Prod.mk.injEq] at h
        rw [← h.2]
        exact length_of_tailBytes hk
      · simp at h

/-- Decodes bytes to the text that they stand for; the first fault wins. -/
def decode : List UInt8 → Except Utf8Fault (List Char)
  | [] => .ok []
  | b :: bytes =>
    match _ : decodeChar b bytes with
    | .error fault => .error fault
    | .ok (c, rest) =>
      match decode rest with
      | .error fault => .error fault
      | .ok cs => .ok (c :: cs)
termination_by bytes => bytes.length
decreasing_by
  have := length_of_decodeChar ‹decodeChar b bytes = .ok (c, rest)›
  simp only [List.length_cons]
  omega

end Dncl.Text
