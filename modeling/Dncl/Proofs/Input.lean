/-
Dncl/Proofs/Input.lean

The input of a run, line by line.

Each input command takes one line of input, whatever other commands stand
between, and finds none behind the last.  Bytes that spell a text give the
lines of that text: a line break is one byte, and no other character has that
byte in it.  A line is an integer exactly if it is one sign at most and digits
between blanks, and within range.
-/
import Mathlib.Algebra.Ring.Int.Defs
import Mathlib.Data.List.DropRight
import Dncl.Console
import Dncl.Proofs.Pointing
import Dncl.Proofs.Spelling

namespace Dncl

variable {cs sign : List Char} {n : Int}

/-! ### Bytes of a text -/

namespace Text

variable {c : Char} {b : UInt8} {bs rest : List UInt8} {bits : Nat}

/-- The bytes of a text. -/
def encode (cs : List Char) : List UInt8 :=
  cs.flatMap String.utf8EncodeChar

theorem encode_cons (c : Char) (cs : List Char) :
    encode (c :: cs) = String.utf8EncodeChar c ++ encode cs := rfl

theorem toUTF8_eq_encode (text : String) : text.toUTF8.data.toList = encode text.toList := by
  rw [String.toUTF8, ← String.utf8Encode_toList, List.utf8Encode, List.data_toByteArray]
  rfl

theorem decodedChar?_toNat (c : Char) : decodedChar? c.toNat c.utf8Size = some c := by
  have hvalid : c.toNat.isValidChar := c.valid
  have hchar : Char.ofNatAux c.toNat hvalid = c := Char.ext (UInt32.toNat_inj.1 rfl)
  rw [decodedChar?, dif_pos hvalid]
  dsimp only
  rw [hchar, if_pos rfl]

theorem tailBits_ofNat (n : Nat) : tailBits (UInt8.ofNat (n % 64 + 128)) = some (n % 64) := by
  rw [tailBits, UInt8.toNat_ofNat_of_lt' (show n % 64 + 128 < 256 by omega), if_pos (by omega)]
  congr 1
  omega

theorem leadBits_one {n : Nat} (h : n ≤ 127) : leadBits (UInt8.ofNat n) = some (0, n) := by
  rw [leadBits, UInt8.toNat_ofNat_of_lt' (show n < 256 by omega)]
  exact if_pos (by omega)

theorem leadBits_two (n : Nat) : leadBits (UInt8.ofNat (n % 32 + 192)) = some (1, n % 32) := by
  simp only [leadBits, UInt8.toNat_ofNat_of_lt' (show n % 32 + 192 < 256 by omega)]
  rw [if_neg (by omega), if_pos (by omega), show (n % 32 + 192) % 32 = n % 32 by omega]

theorem leadBits_three (n : Nat) : leadBits (UInt8.ofNat (n % 16 + 224)) = some (2, n % 16) := by
  simp only [leadBits, UInt8.toNat_ofNat_of_lt' (show n % 16 + 224 < 256 by omega)]
  rw [if_neg (by omega), if_neg (by omega), if_pos (by omega),
    show (n % 16 + 224) % 16 = n % 16 by omega]

theorem leadBits_four (n : Nat) : leadBits (UInt8.ofNat (n % 8 + 240)) = some (3, n % 8) := by
  simp only [leadBits, UInt8.toNat_ofNat_of_lt' (show n % 8 + 240 < 256 by omega)]
  rw [if_neg (by omega), if_neg (by omega), if_neg (by omega), if_pos (by omega),
    show (n % 8 + 240) % 8 = n % 8 by omega]

/-- A leading byte and the bytes behind it give their character back. -/
theorem decodeChar_of_tailBytes (hsize : (b :: bs).length = c.utf8Size)
    (hlead : leadBits b = some (bs.length, bits))
    (htail : tailBytes bs.length bits (bs ++ rest) = .ok (c.toNat, rest)) :
    decodeChar b (bs ++ rest) = .ok (c, rest) := by
  have hchar : decodedChar? c.toNat (bs.length + 1) = some c := by
    rw [show bs.length + 1 = c.utf8Size from hsize]
    exact decodedChar?_toNat c
  simp only [decodeChar, hlead, htail, hchar]

/-- The bytes of a character are decoded to it. -/
theorem decodeChar_encodeChar (c : Char) (rest : List UInt8) :
    ∃ b bs, String.utf8EncodeChar c = b :: bs ∧ decodeChar b (bs ++ rest) = .ok (c, rest) := by
  have hsize := String.length_utf8EncodeChar c
  have hmax : c.toNat < 1114112 := by
    rcases c.valid with h | h
    · exact lt_trans h (by decide)
    · exact h.2
  -- One case for each number of bytes; the bits of the bytes add up to the code point.
  rw [String.utf8EncodeChar] at hsize ⊢
  simp only [show c.val.toNat = c.toNat from rfl] at hsize ⊢
  by_cases h₁ : c.toNat ≤ 127
  · rw [if_pos h₁] at hsize ⊢
    exact ⟨_, _, rfl, decodeChar_of_tailBytes hsize (leadBits_one h₁) rfl⟩
  by_cases h₂ : c.toNat ≤ 2047
  · rw [if_neg h₁, if_pos h₂] at hsize ⊢
    refine ⟨_, _, rfl, decodeChar_of_tailBytes hsize (leadBits_two _) ?_⟩
    simp only [List.length_cons, List.length_nil, List.cons_append, List.nil_append,
      tailBytes, tailBits_ofNat]
    congr 2
    omega
  by_cases h₃ : c.toNat ≤ 65535
  · rw [if_neg h₁, if_neg h₂, if_pos h₃] at hsize ⊢
    refine ⟨_, _, rfl, decodeChar_of_tailBytes hsize (leadBits_three _) ?_⟩
    simp only [List.length_cons, List.length_nil, List.cons_append, List.nil_append,
      tailBytes, tailBits_ofNat]
    congr 2
    omega
  · rw [if_neg h₁, if_neg h₂, if_neg h₃] at hsize ⊢
    refine ⟨_, _, rfl, decodeChar_of_tailBytes hsize (leadBits_four _) ?_⟩
    simp only [List.length_cons, List.length_nil, List.cons_append, List.nil_append,
      tailBytes, tailBits_ofNat]
    congr 2
    omega

/-- Bytes that spell a text are decoded to it. -/
theorem decode_encode (cs : List Char) : decode (encode cs) = .ok cs := by
  induction cs with
  | nil => rw [show encode [] = [] from rfl, decode]
  | cons c cs ih =>
    obtain ⟨b, bs, hbytes, hchar⟩ := decodeChar_encodeChar c (encode cs)
    rw [encode_cons, hbytes, List.cons_append, decode]
    split <;> rename_i heq <;> cases hchar.symm.trans heq
    rw [ih]

/-- No byte of a character other than a line break is one. -/
theorem ne_break_of_mem_encodeChar (hc : c ≠ '\n') (hb : b ∈ String.utf8EncodeChar c) :
    b ≠ 10 := by
  have hcode : c.toNat ≠ 10 := fun h => hc (Char.toNat_inj.1 h)
  have hbyte : ∀ n < 256, n ≠ 10 → UInt8.ofNat n ≠ 10 := by
    intro n hn hne heq
    have := congrArg UInt8.toNat heq
    rw [UInt8.toNat_ofNat_of_lt' hn] at this
    exact hne this
  rw [String.utf8EncodeChar] at hb
  simp only [show c.val.toNat = c.toNat from rfl] at hb
  split at hb
  · obtain rfl := List.mem_singleton.1 hb
    exact hbyte _ (by omega) hcode
  · split at hb
    · rcases List.mem_pair.1 hb with rfl | rfl <;> exact hbyte _ (by omega) (by omega)
    · split at hb <;> simp only [List.mem_cons, List.not_mem_nil, or_false] at hb <;>
        rcases hb with rfl | rfl | rfl | rfl <;> exact hbyte _ (by omega) (by omega)

/-! ### Lines -/

/-- The lines of a text that was cut at its breaks, each with its break behind
it; an empty last piece is no line. -/
def withBreaks : List (List Char) → List (List Char)
  | [] => []
  | [piece] => if piece = [] then [] else [piece]
  | piece :: next :: rest => (piece ++ ['\n']) :: withBreaks (next :: rest)

/-- The lines of a text: the pieces between its line breaks, without an empty
piece behind the last. -/
def textLines (cs : List Char) : List (List Char) :=
  let pieces := cs.splitOn '\n'
  if pieces.getLast? = some [] then pieces.dropLast else pieces

theorem withoutBreak_eq_rdropWhile (line : List Char) :
    withoutBreak line = line.rdropWhile fun c => c = '\r' ∨ c = '\n' := by
  have hbreak : (fun c : Char => c == '\r' || c == '\n') =
      fun c => decide (c = '\r' ∨ c = '\n') := by
    funext c
    rw [Bool.decide_or]
    rfl
  rw [← hbreak]
  rfl

/-- The breaks behind lines go together with the returns before them. -/
theorem map_withoutBreak_withBreaks {pieces : List (List Char)} (hne : pieces ≠ []) :
    (withBreaks pieces).map withoutBreak =
      (if pieces.getLast? = some [] then pieces.dropLast else pieces).map withoutBreak := by
  fun_induction withBreaks pieces with
  | case1 => exact absurd rfl hne
  | case2 => rfl
  | case3 piece hpiece => simp [hpiece]
  | case4 piece next rest ih =>
    have hbreak : withoutBreak (piece ++ ['\n']) = withoutBreak piece :=
      List.rdropWhile_concat_pos _ _ _ rfl
    rw [List.map_cons, ih (List.cons_ne_nil next rest), hbreak, List.getLast?_cons_cons]
    split <;> rfl

end Text

theorem byteLines_append {bs : List UInt8} (hne : bs ≠ []) (hbs : ∀ b ∈ bs, b ≠ 10)
    (rest : List UInt8) :
    byteLines (bs ++ rest) =
      (bs ++ (byteLines rest).headD []) :: (byteLines rest).tail := by
  induction bs with
  | nil => exact absurd rfl hne
  | cons b bs ih =>
    rw [List.cons_append, byteLines, if_neg (hbs b List.mem_cons_self)]
    by_cases hnil : bs = []
    · subst hnil
      cases h : byteLines rest <;> simp [h]
    · rw [ih hnil fun x hx => hbs x (List.mem_cons_of_mem b hx)]
      rfl

open Text in
/-- The bytes of a text have the lines of the text. -/
theorem byteLines_encode (cs : List Char) :
    byteLines (encode cs) = (withBreaks (split cs)).map encode := by
  induction cs with
  | nil => rfl
  | cons c cs ih =>
    obtain ⟨piece, pieces, hsplit⟩ := exists_split cs
    rw [hsplit] at ih
    by_cases hc : c = '\n'
    · subst hc
      rw [split, if_pos rfl, hsplit, encode_cons]
      show byteLines (10 :: encode cs) = _
      rw [byteLines, if_pos rfl, ih]
      rfl
    · have hbytes : String.utf8EncodeChar c ≠ [] := by
        obtain ⟨b, bs, hb, -⟩ := decodeChar_encodeChar c []
        simp [hb]
      rw [split, if_neg hc, hsplit, encode_cons,
        byteLines_append hbytes (fun b => ne_break_of_mem_encodeChar hc), ih]
      cases pieces with
      | nil => by_cases hp : piece = [] <;> simp [withBreaks, hp, encode]
      | cons next rest => simp [withBreaks, encode]

/-- Bytes that spell a text have its lines as input. -/
theorem inputLines_encode (cs : List Char) :
    inputLines (Text.encode cs) = (Text.withBreaks (Text.split cs)).map .text := by
  rw [inputLines, byteLines_encode, List.map_map]
  refine List.map_congr_left fun line _ => ?_
  rw [Function.comp_apply, InputLine.ofBytes, Text.decode_encode]

/-! ### Integers -/

namespace Text

/-- The text is at most one sign and then digits, and denotes the number `n`
in the range of integers. -/
def Denotes (cs : List Char) (n : Int) : Prop :=
  ∃ sign digits, cs = sign ++ digits ∧ digits ≠ [] ∧ (∀ d ∈ digits, '0' ≤ d ∧ d ≤ '9') ∧
    ((sign = [] ∨ sign = ['+']) ∧ n = (Nat.ofDigitChars 10 digits 0 : Int) ∨
      sign = ['-'] ∧ n = -(Nat.ofDigitChars 10 digits 0 : Int)) ∧
    -2 ^ 63 ≤ n ∧ n < 2 ^ 63

theorem digits?_eq_some_iff {acc n : Nat} :
    digits? acc cs = some n ↔
      (∀ d ∈ cs, '0' ≤ d ∧ d ≤ '9') ∧ n = Nat.ofDigitChars 10 cs acc := by
  induction cs generalizing acc with
  | nil => simp [digits?, Nat.ofDigitChars_nil, eq_comm]
  | cons c cs ih =>
    rw [digits?, Nat.ofDigitChars_cons, List.forall_mem_cons, and_assoc]
    by_cases hc : '0' ≤ c ∧ c ≤ '9'
    · rw [digit?, if_pos hc, Option.bind_some, ih, Nat.mul_comm]
      exact (and_iff_right hc).symm
    · rw [digit?, if_neg hc]
      simp [hc]

theorem natural?_eq_some_iff {n : Nat} :
    natural? cs = some n ↔
      cs ≠ [] ∧ (∀ d ∈ cs, '0' ≤ d ∧ d ≤ '9') ∧ n = Nat.ofDigitChars 10 cs 0 := by
  cases cs with
  | nil => simp [natural?]
  | cons c cs =>
    rw [natural?, digits?_eq_some_iff]
    exact (and_iff_right (List.cons_ne_nil c cs)).symm

theorem checked_eq_some_iff {m : Int} : checked m = some n ↔ n = m ∧ -2 ^ 63 ≤ n ∧ n < 2 ^ 63 := by
  rw [checked, minInt, maxInt]
  split <;> simp only [Option.some.injEq, reduceCtorEq, false_iff] <;> omega

/-- Digits with a sign before them that turns their number into `value`. -/
theorem bind_checked_eq_some_iff {digits : List Char} (value : Nat → Int) :
    ((natural? digits).bind fun m => checked (value m)) = some n ↔
      digits ≠ [] ∧ (∀ d ∈ digits, '0' ≤ d ∧ d ≤ '9') ∧
        n = value (Nat.ofDigitChars 10 digits 0) ∧ -2 ^ 63 ≤ n ∧ n < 2 ^ 63 := by
  rw [Option.bind_eq_some_iff]
  constructor
  · rintro ⟨m, hm, hn⟩
    obtain ⟨hne, hdigits, rfl⟩ := natural?_eq_some_iff.1 hm
    exact ⟨hne, hdigits, checked_eq_some_iff.1 hn⟩
  · rintro ⟨hne, hdigits, hn⟩
    exact ⟨_, natural?_eq_some_iff.2 ⟨hne, hdigits, rfl⟩, checked_eq_some_iff.2 hn⟩

/-- The texts that are read as an integer are those that denote it. -/
theorem integer?_eq_some_iff : integer? cs = some n ↔ Denotes cs n := by
  constructor
  · intro h
    fun_cases integer? cs with
    | case1 cs =>
      obtain ⟨hne, hdigits, hn, hrange⟩ := (bind_checked_eq_some_iff fun m => m).1 h
      exact ⟨['+'], cs, rfl, hne, hdigits, .inl ⟨.inr rfl, hn⟩, hrange⟩
    | case2 cs =>
      obtain ⟨hne, hdigits, hn, hrange⟩ := (bind_checked_eq_some_iff fun m => -m).1 h
      exact ⟨['-'], cs, rfl, hne, hdigits, .inr ⟨rfl, hn⟩, hrange⟩
    | case3 cs hplus hminus =>
      rw [integer?.eq_3 cs hplus hminus] at h
      obtain ⟨hne, hdigits, hn, hrange⟩ := (bind_checked_eq_some_iff fun m => m).1 h
      exact ⟨[], cs, rfl, hne, hdigits, .inl ⟨.inl rfl, hn⟩, hrange⟩
  · rintro ⟨sign, digits, rfl, hne, hdigits, ⟨rfl | rfl, hn⟩ | ⟨rfl, hn⟩, hrange⟩
    · -- No digit is a sign, so digits alone are read by the last rule.
      rw [List.nil_append, integer?]
      · exact (bind_checked_eq_some_iff fun m => m).2 ⟨hne, hdigits, hn, hrange⟩
      · rintro cs rfl
        exact absurd (hdigits '+' List.mem_cons_self) (by decide)
      · rintro cs rfl
        exact absurd (hdigits '-' List.mem_cons_self) (by decide)
    · exact (bind_checked_eq_some_iff fun m => m).2 ⟨hne, hdigits, hn, hrange⟩
    · exact (bind_checked_eq_some_iff fun m => -m).2 ⟨hne, hdigits, hn, hrange⟩

theorem trim_of_forall (h : ∀ c ∈ cs, isBlank c = false) : trim cs = cs := by
  have hdrop : cs.dropWhile isBlank = cs :=
    List.dropWhile_eq_self_iff.2 fun hlength => by simp [h _ (List.getElem_mem hlength)]
  rw [trim, hdrop]
  exact List.rdropWhile_eq_self_iff.2 fun hne => by simp [h _ (List.getLast_mem hne)]

theorem isBlank_of_isDigit {c : Char} (h : c.isDigit = true) : isBlank c = false := by
  have hdigits : ∀ n < 58, 48 ≤ n → isBlank (Char.ofNat n) = false := by decide
  obtain ⟨hlow, hhigh⟩ := Char.isDigit_iff_toNat.1 h
  rw [← Char.ofNat_toNat c]
  exact hdigits _ (Nat.lt_succ_of_le hhigh) hlow

theorem denotes_toDigits {m : Nat}
    (hsign : (sign = [] ∨ sign = ['+']) ∧ n = m ∨ sign = ['-'] ∧ n = -(m : Int))
    (hrange : -2 ^ 63 ≤ n ∧ n < 2 ^ 63) : Denotes (sign ++ Nat.toDigits 10 m) n := by
  refine ⟨sign, _, rfl, Nat.toDigits_ne_nil, fun d hd => ?_, ?_, hrange⟩
  · obtain ⟨hlow, hhigh⟩ :=
      Char.isDigit_iff_toNat.1 (Nat.isDigit_of_mem_toDigits (by decide) (by decide) hd)
    exact ⟨hlow, hhigh⟩
  · rwa [Nat.ofDigitChars_ten_toDigits]

theorem trim_toDigits (hsign : ∀ c ∈ sign, isBlank c = false) (m : Nat) :
    trim (sign ++ Nat.toDigits 10 m) = sign ++ Nat.toDigits 10 m := by
  refine trim_of_forall fun c hc => ?_
  rcases List.mem_append.1 hc with h | h
  · exact hsign c h
  · exact isBlank_of_isDigit (Nat.isDigit_of_mem_toDigits (by decide) (by decide) h)

/-- An integer is read from its decimal text. -/
theorem integer?_trim_toString (hmin : minInt ≤ n) (hmax : n ≤ maxInt) :
    integer? (trim (toString n).toList) = some n := by
  rw [minInt] at hmin
  rw [maxInt] at hmax
  rw [integer?_eq_some_iff]
  cases n with
  | ofNat m =>
    have htext : (toString (Int.ofNat m)).toList = [] ++ Nat.toDigits 10 m :=
      toList_toString_nat m
    rw [htext, trim_toDigits (by simp)]
    exact denotes_toDigits (.inl ⟨.inl rfl, rfl⟩) (by omega)
  | negSucc m =>
    have htext : (toString (Int.negSucc m)).toList = ['-'] ++ Nat.toDigits 10 (m + 1) := by
      rw [show toString (Int.negSucc m) = "-" ++ toString ((m + 1 : Nat) : Int) from rfl,
        String.toList_append, toList_toString_nat]
      rfl
    rw [htext, trim_toDigits (List.forall_mem_singleton.2 rfl)]
    exact denotes_toDigits (.inr ⟨rfl, rfl⟩) (by omega)

end Text

/-! ### Commands -/

/-- Whether a command reads input. -/
def Command.isInput : Command → Bool
  | input => true
  | other _ => false

namespace Console

variable {c : Console}

/-- The values of commands that are given to a console one after the other. -/
def answers (c : Console) : List (Command × Span) → List Value
  | [] => []
  | (command, span) :: commands =>
    (c.command command span).1 :: (c.command command span).2.answers commands

/-- The value of a command before which `k` of the lines were taken. -/
def answerAt (lines : List (List Char)) (k : Nat) : Command × Span → Value
  | (.input, span) =>
    match lines[k]? with
    | some line => inputValue line span
    | none => .error "入力がありません" span
  | (.other _, span) => .null span

/-- How many lines of input the first `i` commands ask for. -/
def asked (commands : List (Command × Span)) (i : Nat) : Nat :=
  (commands.take i).countP fun x => x.1.isInput

theorem answerAt_drop (lines : List (List Char)) (j k : Nat) :
    answerAt (lines.drop j) k = answerAt lines (j + k) := by
  funext x
  rcases x with ⟨command | text, span⟩
  · rw [answerAt, answerAt, List.getElem?_drop]
  · rfl

theorem asked_cons_succ (x : Command × Span) (commands : List (Command × Span)) (i : Nat) :
    asked (x :: commands) (i + 1) = (if x.1.isInput then 1 else 0) + asked commands i := by
  rw [asked, List.take_succ_cons, List.countP_cons, Nat.add_comm]
  rfl

/-- A command that reads input takes one line, and any other takes none. -/
theorem command_takes {lines : List (List Char)} (hinput : c.input = lines.map .text)
    (x : Command × Span) :
    (c.command x.1 x.2).1 = answerAt (lines.map withoutBreak) 0 x ∧
      (c.command x.1 x.2).2.input =
        (lines.drop (if x.1.isInput then 1 else 0)).map .text := by
  rcases x with ⟨command | text, span⟩
  · cases lines with
    | nil =>
      have htake : c.take = none := by
        rw [take, hinput]
        rfl
      simp only [command, readLine, htake]
      exact ⟨rfl, hinput⟩
    | cons line lines =>
      have htake : c.take = some (.text line, { c with input := lines.map .text }) := by
        rw [take, hinput]
        rfl
      simp only [command, readLine, htake]
      exact ⟨rfl, rfl⟩
  · exact ⟨rfl, hinput⟩

/-- Each command has its value from the line that it comes to. -/
theorem getElem?_answers {lines : List (List Char)} (hinput : c.input = lines.map .text)
    (commands : List (Command × Span)) (i : Nat) :
    (c.answers commands)[i]? =
      commands[i]?.map (answerAt (lines.map withoutBreak) (asked commands i)) := by
  induction commands generalizing c lines i with
  | nil => rfl
  | cons x commands ih =>
    obtain ⟨hvalue, hrest⟩ := command_takes hinput x
    cases i with
    | zero => exact congrArg some hvalue
    | succ i =>
      rw [answers, List.getElem?_cons_succ, List.getElem?_cons_succ, ih hrest, asked_cons_succ,
        ← answerAt_drop, List.map_drop]

end Console

theorem inputValue_eq_int_iff (line : List Char) (span : Span) (n : Int) :
    inputValue line span = .int n span ↔ Text.Denotes (Text.trim line) n := by
  rw [← Text.integer?_eq_some_iff, inputValue]
  cases Text.integer? (Text.trim line) with
  | none => simp
  | some m => simp

theorem inputValue_eq_str {line : List Char} (h : ∀ n, ¬ Text.Denotes (Text.trim line) n)
    (span : Span) : inputValue line span = .str (String.ofList line) span := by
  have hnone : Text.integer? (Text.trim line) = none :=
    Option.eq_none_iff_forall_ne_some.2 fun n hn => h n (Text.integer?_eq_some_iff.1 hn)
  rw [inputValue, hnone]

/-- **Input is taken line by line.**  The bytes of a text are the input of a
console that is given some commands.  A command that reads input has its value
from the line behind those that the commands before it took, and there is no
input behind the last line; any other command comes to null and takes none.
The value of a line is the integer that the line denotes between blanks, and
the line itself if it denotes none; an integer is read back from its decimal
text. -/
theorem input_taken_by_line (text : String) (c : Console) (commands : List (Command × Span)) :
    (∀ i, ({ c with input := inputLines text.toUTF8.data.toList }.answers commands)[i]? =
      commands[i]?.map (Console.answerAt
        ((Text.textLines text.toList).map (·.rdropWhile fun c => c = '\r' ∨ c = '\n'))
        (Console.asked commands i))) ∧
    (∀ line span,
      (∀ n, inputValue line span = .int n span ↔ Text.Denotes (Text.trim line) n) ∧
      ((∀ n, ¬ Text.Denotes (Text.trim line) n) →
        inputValue line span = .str (String.ofList line) span)) ∧
    ∀ n span, Text.minInt ≤ n → n ≤ Text.maxInt →
      inputValue (toString n).toList span = .int n span := by
  refine ⟨fun i => ?_, fun line span => ⟨inputValue_eq_int_iff line span,
    fun h => inputValue_eq_str h span⟩, fun n span hmin hmax => ?_⟩
  · have hinput : ({ c with input := inputLines text.toUTF8.data.toList } : Console).input =
        (Text.withBreaks (Text.split text.toList)).map .text := by
      rw [Text.toUTF8_eq_encode, inputLines_encode]
    obtain ⟨piece, pieces, hsplit⟩ := Text.exists_split text.toList
    have hpieces : Text.split text.toList ≠ [] := hsplit ▸ List.cons_ne_nil piece pieces
    rw [Console.getElem?_answers hinput, Text.map_withoutBreak_withBreaks hpieces,
      Text.split_eq_splitOn]
    simp only [Text.textLines, ← Text.withoutBreak_eq_rdropWhile]
  · rw [inputValue, Text.integer?_trim_toString hmin hmax]

/-- Commands between do not disturb the lines, and the last line needs no
break. -/
theorem input_taken_by_line_between :
    ({ input := inputLines "41\r\n　-7\nend\r".toUTF8.data.toList } : Console).answers
        [(.input, ⟨0, 1⟩), (.other "乱数", ⟨1, 2⟩), (.input, ⟨2, 3⟩), (.input, ⟨3, 4⟩),
          (.input, ⟨4, 5⟩)] =
      [.int 41 ⟨0, 1⟩, .null ⟨1, 2⟩, .int (-7) ⟨2, 3⟩, .str "end" ⟨3, 4⟩,
        .error "入力がありません" ⟨4, 5⟩] ∧
    inputValue (toString Text.minInt).toList ⟨0, 1⟩ = .int Text.minInt ⟨0, 1⟩ := by
  have h := input_taken_by_line "41\r\n　-7\nend\r" {}
    [(.input, ⟨0, 1⟩), (.other "乱数", ⟨1, 2⟩), (.input, ⟨2, 3⟩), (.input, ⟨3, 4⟩),
      (.input, ⟨4, 5⟩)]
  refine ⟨List.ext_getElem? fun i => (h.1 i).trans ?_, h.2.2 _ _ (by decide) (by decide)⟩
  rcases i with _ | _ | _ | _ | _ | i <;> rfl

end Dncl
