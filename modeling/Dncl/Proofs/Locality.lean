/-
Dncl/Proofs/Locality.lean

A token is read by itself.

What stands behind a delimiter has no influence on the tokens before it:

    readToken on  cs ++ tail   =   readToken on  cs,  with `tail` behind its rest,

for every `tail` that is empty or begins with a delimiter, unless a string or a
command is not closed in `cs`.  So the tokens of a line do not depend on the
lines after it, nor on the offset and the blocks of the scanner
(`Scanner.readToken_local`).

Design.  Each reader has one lemma, in the form of `Reading.before`.
-/
import Dncl.Proofs.Spelling

namespace Dncl

/-- The same reading in a text that goes on with `tail`. -/
def Reading.before {α : Type} (r : Reading α) (tail : List Char) : Reading α :=
  { r with rest := r.rest ++ tail }

/-! ### Readers -/

section Readers

variable {c : Char} {cs tail : List Char}

theorem readString_cons {close : Char} (hc : c ≠ '\\') (cs : List Char) :
    readString close (c :: cs) =
      if c = '\n' then ⟨none, [c], cs⟩
      else if c = close then ⟨some [], [c], cs⟩
      else ⟨(readString close cs).value.map (c :: ·), c :: (readString close cs).taken,
        (readString close cs).rest⟩ := by
  rw [readString]
  · exact fun heq => absurd heq hc
  · exact fun _ _ heq => absurd heq hc

/-- The two cases of an escape exclude that a later case is one. -/
theorem ne_escape (hnil : c = '\\' → cs = [] → False)
    (hcons : ∀ d ds, c = '\\' → cs = d :: ds → False) : c ≠ '\\' := by
  intro hc
  cases cs with
  | nil => exact hnil hc rfl
  | cons d ds => exact hcons d ds hc rfl

/-- A string that is closed is read in the same way before any text. -/
theorem readString_before {close : Char} (h : (readString close cs).value.isSome = true)
    (tail : List Char) :
    readString close (cs ++ tail) = (readString close cs).before tail := by
  fun_induction readString close cs with
  | case1 => cases h
  | case2 => cases h
  | case3 c cs r ih =>
    rw [List.cons_append, List.cons_append, readString, ih (Option.isSome_map.symm.trans h)]
    rfl
  | case4 => cases h
  | case5 cs hnil hcons hbreak =>
    rw [List.cons_append, readString_cons (ne_escape hnil hcons), if_neg hbreak, if_pos rfl]
    rfl
  | case6 c cs hnil hcons hbreak hclose r ih =>
    rw [List.cons_append, readString_cons (ne_escape hnil hcons), if_neg hbreak, if_neg hclose,
      ih (Option.isSome_map.symm.trans h)]
    rfl

/-- A command that is closed is read in the same way before any text. -/
theorem readCommand_before (h : (readCommand cs).value.isSome = true) (tail : List Char) :
    readCommand (cs ++ tail) = (readCommand cs).before tail := by
  fun_induction readCommand cs with
  | case1 => cases h
  | case2 => cases h
  | case3 cs hbreak =>
    rw [List.cons_append, readCommand, if_neg hbreak, if_pos rfl]
    rfl
  | case4 c cs hbreak hclose r ih =>
    rw [List.cons_append, readCommand, if_neg hbreak, if_neg hclose,
      ih (Option.isSome_map.symm.trans h)]
    rfl

theorem takeWhile_isDigit_of_delimited (htail : Delimited tail) : tail.takeWhile isDigit = [] := by
  cases tail with
  | nil => rfl
  | cons c tail =>
    exact List.takeWhile_cons_of_neg (by simp [isDigit_delimiter c (htail c rfl)])

theorem readDigits_before (cs : List Char) (htail : Delimited tail) :
    readDigits (cs ++ tail) = (readDigits cs).before tail := by
  have htake : (cs ++ tail).takeWhile isDigit = cs.takeWhile isDigit := by
    rw [List.takeWhile_append, takeWhile_isDigit_of_delimited htail, List.append_nil]
    split
    · rename_i hall
      exact ((List.takeWhile_prefix _).eq_of_length hall).symm
    · rfl
  have hdrop : (cs ++ tail).dropWhile isDigit = cs.dropWhile isDigit ++ tail := by
    have hsplit := List.takeWhile_append_dropWhile (p := isDigit) (l := cs ++ tail)
    rw [htake] at hsplit
    refine List.append_cancel_left (hsplit.trans ?_)
    rw [← List.append_assoc, List.takeWhile_append_dropWhile]
  rw [readDigits, htake, hdrop]
  rfl

theorem readMark_before (c : Char) (cs : List Char) (htail : Delimited tail) :
    readMark? c (cs ++ tail) = (readMark? c cs).map (Reading.before · tail) := by
  -- a mark of one character leaves all the text
  have single : ((Symbol.singles.lookup c).map fun s => (⟨s, [c], cs ++ tail⟩ : Reading Symbol)) =
      ((Symbol.singles.lookup c).map fun s => (⟨s, [c], cs⟩ : Reading Symbol)).map
        (Reading.before · tail) := by
    rw [Option.map_map]
    rfl
  cases cs with
  | nil =>
    cases tail with
    | nil => exact single
    | cons e tail =>
      have hequals : ¬isEqualsSign e = true := by simp [isEqualsSign_delimiter e (htail e rfl)]
      exact (if_neg hequals).trans single
  | cons e cs =>
    rw [List.cons_append, readMark?, readMark?]
    split
    · split
      · rfl
      · exact single
    · exact single

theorem readNameTail_before (cs : List Char) (htail : Delimited tail) :
    readNameTail (cs ++ tail) = (readNameTail cs).before tail := by
  induction cs with
  | nil =>
    have hnil : GoesOn [] := trivial
    exact readNameTail_of_goesOn hnil htail
  | cons c cs ih =>
    rw [List.cons_append, readNameTail, readNameTail, endsName_before htail, ih]
    split <;> rfl

theorem Keyword.length_of_startOf? {k : Keyword} (h : Keyword.startOf? cs = some k) :
    k.spelling.length ≤ cs.length := by
  have hstart : k.spelling.toList.isPrefixOf cs = true :=
    List.find?_some (p := fun k : Keyword => k.spelling.toList.isPrefixOf cs) h
  rw [← String.length_toList]
  exact (List.isPrefixOf_iff_prefix.1 hstart).length_le

theorem readWord_before (c : Char) (cs : List Char) (htail : Delimited tail) :
    readWord c (cs ++ tail) = (readWord c cs).before tail := by
  rw [readWord, readWord, ← List.cons_append, Keyword.startOf?_before htail]
  cases h : Keyword.startOf? (c :: cs) with
  | none =>
    rw [readNameTail_before cs htail]
    rfl
  | some k =>
    have hlength := Keyword.length_of_startOf? h
    simp only [Reading.before, List.take_append_of_le_length hlength,
      List.drop_append_of_le_length hlength]

end Readers

/-! ### Where tokens begin -/

namespace Scanner

variable {c : Char} {cs tail : List Char}

theorem startsComment_cons (c : Char) (cs : List Char) :
    startsComment (c :: cs) = (c == '#' || c == '＃' || (c == '/' && cs.head? == some '/')) := by
  rw [startsComment.eq_def]
  split
  · rename_i heq
    cases heq
    rfl
  · rename_i heq
    cases heq
    rfl
  · rename_i heq
    cases heq
    rfl
  · rename_i hsharp hwide hslash
    have h₁ : c ≠ '#' := fun heq => hsharp cs (heq ▸ rfl)
    have h₂ : c ≠ '＃' := fun heq => hwide cs (heq ▸ rfl)
    cases cs with
    | nil => simp [h₁, h₂]
    | cons d cs =>
      have h₃ : c = '/' → d ≠ '/' := by
        rintro rfl rfl
        exact hslash cs rfl
      simpa [h₁, h₂] using h₃

theorem startsComment_before (htail : Delimited tail) :
    startsComment (c :: (cs ++ tail)) = startsComment (c :: cs) := by
  rw [startsComment_cons, startsComment_cons]
  cases cs with
  | cons d cs => rfl
  | nil =>
    cases tail with
    | nil => rfl
    | cons d tail =>
      -- a delimiter is no second slash
      have hd : d ≠ '/' := fun heq => absurd (htail d rfl) (heq ▸ by decide)
      simp [hd]

theorem isBare_cons (hbreak : c ≠ '\n') (hreturn : c ≠ '\r') (cs : List Char) :
    isBare (c :: cs) = startsComment (c :: cs) := by
  rw [isBare]
  · exact nofun
  · rintro _ ⟨⟩
    exact hbreak rfl
  · rintro _ ⟨⟩
    exact hreturn rfl

/-- Whether a line is bare does not depend on the lines after it. -/
theorem isBare_line (cs tail : List Char) : isBare (cs ++ '\n' :: tail) = isBare cs := by
  cases cs with
  | nil => rfl
  | cons c cs =>
    rw [List.cons_append]
    by_cases hbreak : c = '\n'
    · rw [hbreak]
      rfl
    by_cases hreturn : c = '\r'
    · rw [hreturn]
      rfl
    rw [isBare_cons hbreak hreturn, isBare_cons hbreak hreturn,
      startsComment_before (delimited_cons (by decide))]

/-! ### Tokens -/

/-- A token or a fault, wherever it was found. -/
def shapeOf : Except LexError Lexeme → Except LexCause Token
  | .ok lexeme => .ok lexeme.token
  | .error fault => .error fault.cause

/-- Whether what was read is closed: it is no string and no command whose end is
missing. -/
def isClosed : Except LexError Lexeme → Bool
  | .error fault => fault.cause != .unterminatedString && fault.cause != .unterminatedCommand
  | .ok _ => true

/-- A scanner that takes the same characters from a text that goes on. -/
theorem after_before {α : Type} {s s' : Scanner} (r : Reading α) (tail : List Char)
    (hdepth : s'.depth = s.depth) :
    s'.after (r.before tail) =
      { s' with
        rest := (s.after r).rest ++ tail
        pos := s'.pos + ((s.after r).pos - s.pos)
        depth := (s.after r).depth } := by
  simp [after, Reading.before, hdepth]

/-- What `s'` finds in a text that goes on with `tail` is what `s` finds without
it: the same token or fault, and as much text is left. -/
def Mirrors (tail : List Char) (s s' : Scanner) (found found' : Except LexError Lexeme × Scanner) :
    Prop :=
  shapeOf found'.1 = shapeOf found.1 ∧ found'.2 =
    { s' with
      rest := found.2.rest ++ tail
      pos := s'.pos + (found.2.pos - s.pos)
      depth := found.2.depth }

section Mirrors

variable {s s' : Scanner}

theorem readQuoted_local {close : Char} (hdepth : s'.depth = s.depth)
    (hclosed : isClosed (s.readQuoted c close cs).1 = true) :
    Mirrors tail s s' (s.readQuoted c close cs) (s'.readQuoted c close (cs ++ tail)) := by
  rw [readQuoted] at hclosed ⊢
  split at hclosed
  · rename_i v hv
    rw [readQuoted, readString_before (by rw [hv]; rfl)]
    simp only [Reading.before, hv]
    exact ⟨rfl, after_before ⟨(), c :: _, _⟩ tail hdepth⟩
  · cases hclosed

theorem readBracketed_local (hdepth : s'.depth = s.depth)
    (hclosed : isClosed (s.readBracketed c cs).1 = true) :
    Mirrors tail s s' (s.readBracketed c cs) (s'.readBracketed c (cs ++ tail)) := by
  rw [readBracketed] at hclosed ⊢
  split at hclosed
  · rename_i v hv
    rw [readBracketed, readCommand_before (by rw [hv]; rfl)]
    simp only [Reading.before, hv]
    exact ⟨rfl, after_before ⟨(), c :: _, _⟩ tail hdepth⟩
  · cases hclosed

theorem readInteger_local (hs' : s'.rest = s.rest ++ tail) (hdepth : s'.depth = s.depth)
    (htail : Delimited tail) : Mirrors tail s s' s.readInteger s'.readInteger := by
  have hdigits : readDigits s'.rest = (readDigits s.rest).before tail := by
    rw [hs', readDigits_before _ htail]
  rw [readInteger_eq, readInteger_eq, hdigits]
  by_cases hmax : ((readDigits s.rest).value : Int) ≤ Text.maxInt
  · simp only [Reading.before, hmax, if_true]
    exact ⟨rfl, after_before (readDigits s.rest) tail hdepth⟩
  · simp only [Reading.before, hmax, if_false]
    exact ⟨rfl, after_before (readDigits s.rest) tail hdepth⟩

/-- **A token is read by itself.**  Whatever comes behind a delimiter, and
whatever scanner reads it, the same token or fault is found. -/
theorem readToken_local (hs' : s'.rest = s.rest ++ tail) (hdepth : s'.depth = s.depth)
    (htail : Delimited tail)
    (hclosed : isClosed (s.readToken c cs).1 = true) :
    Mirrors tail s s' (s.readToken c cs) (s'.readToken c (cs ++ tail)) := by
  cases readBy c with
  | quoted close hquote =>
    rw [readToken_quote hquote] at hclosed ⊢
    rw [readToken_quote hquote]
    exact readQuoted_local hdepth hclosed
  | bracketed hc =>
    subst hc
    rw [readToken_bracket] at hclosed ⊢
    rw [readToken_bracket]
    exact readBracketed_local hdepth hclosed
  | digits hdigit =>
    rw [readToken_digit hdigit, readToken_digit hdigit]
    exact readInteger_local hs' hdepth htail
  | plain hplain hdigit =>
    rw [readToken_plain hplain hdigit, readToken_plain hplain hdigit, readMark_before c cs htail]
    cases readMark? c cs with
    | some r =>
      refine ⟨rfl, ?_⟩
      simp [after, Reading.before, hdepth]
    | none =>
      simp only [Option.map_none]
      by_cases hname : isNameStart c = true
      · rw [if_pos hname, if_pos hname, readWord_before c cs htail]
        exact ⟨rfl, after_before (readWord c cs) tail hdepth⟩
      · rw [if_neg hname, if_neg hname]
        refine ⟨rfl, ?_⟩
        simp only [Nat.sub_self, Nat.add_zero, ← hs', ← hdepth]

end Mirrors

end Scanner

end Dncl
