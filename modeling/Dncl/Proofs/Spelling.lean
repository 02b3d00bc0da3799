/-
Dncl/Proofs/Spelling.lean

Tokens that were written down are read again.

`t.written` is a token as the printer writes it.  A scanner that stands before
it reads the token and stands behind it then, if what comes after cannot go on
with the token:

    Spells t.written t tail.

Design.  The printer puts a delimiter behind every token, but for brackets,
signs and keywords, which end where their text ends (`Token.endsItself`).  No
name, keyword or number goes on with a delimiter, so each reader is followed
through `cs ++ tail` for any delimited `tail`.
-/
import Dncl.Proofs.Scan
import Dncl.Syntax.Printer
import Mathlib.Data.Bool.AllAny

namespace Dncl

variable {s : Symbol}

/-! ### Delimiters -/

/-- The characters that the printer puts behind a token. -/
def delimiters : List Char :=
  [' ', '\n', '(', ')', '[', ']', ',', ':']

/-- The text is at its end, or a delimiter comes next. -/
def Delimited (cs : List Char) : Prop :=
  ∀ c ∈ cs.head?, c ∈ delimiters

theorem delimited_nil : Delimited [] := nofun

theorem delimited_cons {c : Char} {cs : List Char} (h : c ∈ delimiters) : Delimited (c :: cs) :=
  fun _ hc => Option.some.inj hc ▸ h

theorem isNameChar_delimiter : ∀ c ∈ delimiters, isNameChar c = false :=
  List.all_iff_forall_prop.1 (by decide)

theorem isDigit_delimiter : ∀ c ∈ delimiters, isDigit c = false :=
  List.all_iff_forall_prop.1 (by decide)

theorem isEqualsSign_delimiter : ∀ c ∈ delimiters, isEqualsSign c = false :=
  List.all_iff_forall_prop.1 (by decide)

/-! ### Words -/

theorem Keyword.not_mem_delimiters (k : Keyword) : ∀ c ∈ k.spelling.toList, c ∉ delimiters := by
  cases k <;> exact List.all_iff_forall_prop.1 (by decide)

section Words

variable {c : Char} {cs tail : List Char}

/-- No keyword reaches past a delimiter. -/
theorem Keyword.startOf?_before (htail : Delimited tail) :
    Keyword.startOf? (cs ++ tail) = Keyword.startOf? cs := by
  have hprefix : ∀ k : Keyword,
      k.spelling.toList.isPrefixOf (cs ++ tail) = k.spelling.toList.isPrefixOf cs := by
    intro k
    rw [Bool.eq_iff_iff, List.isPrefixOf_iff_prefix, List.isPrefixOf_iff_prefix]
    refine ⟨fun h => ?_, fun h => h.trans (List.prefix_append cs tail)⟩
    rcases List.prefix_or_prefix_of_prefix h (List.prefix_append cs tail) with hle | ⟨r, hr⟩
    · exact hle
    · rw [← hr, List.prefix_append_right_inj] at h
      cases r with
      | nil => exact ⟨[], by rw [List.append_nil, ← hr, List.append_nil]⟩
      | cons x r =>
        -- the keyword would go on with the delimiter
        obtain ⟨rest, rfl⟩ := h
        refine absurd (htail x rfl) (k.not_mem_delimiters x ?_)
        rw [← hr]
        exact List.mem_append_right _ List.mem_cons_self
  rw [Keyword.startOf?, Keyword.startOf?]
  exact congrArg (List.find? · Keyword.longestFirst) (funext hprefix)

theorem endsName_before (htail : Delimited tail) :
    endsName (c :: (cs ++ tail)) = endsName (c :: cs) := by
  rw [endsName, endsName, ← List.cons_append, Keyword.startOf?_before htail]

theorem endsName_of_delimited (h : Delimited tail) : endsName tail = true := by
  cases tail with
  | nil => rfl
  | cons c tail =>
    rw [endsName, isNameChar_delimiter c (h c rfl)]
    rfl

/-- A name is read up to the delimiter. -/
theorem readNameTail_of_goesOn (hcs : GoesOn cs) (htail : Delimited tail) :
    readNameTail (cs ++ tail) = ⟨cs, cs, tail⟩ := by
  induction cs with
  | nil =>
    cases tail with
    | nil => rfl
    | cons c tail =>
      show readNameTail (c :: tail) = _
      rw [readNameTail, endsName_of_delimited htail]
      rfl
  | cons c cs ih =>
    show readNameTail (c :: (cs ++ tail)) = _
    rw [readNameTail, endsName_before htail, hcs.1, ih hcs.2]
    rfl

/-- A name that is no keyword is read as one. -/
theorem readWord_name (hname : IsName (c :: cs)) (htail : Delimited tail) :
    readWord c (cs ++ tail) = ⟨.ident (String.ofList (c :: cs)), c :: cs, tail⟩ := by
  obtain ⟨-, -, -, hkeyword, hcs⟩ := hname
  have hword : Keyword.startOf? (c :: (cs ++ tail)) = none :=
    (Keyword.startOf?_before htail).trans hkeyword
  rw [readWord, hword, readNameTail_of_goesOn hcs htail]

/-- Only one keyword is the beginning of another one. -/
theorem Keyword.startOf?_spelling (k : Keyword) (h : k ≠ .wo ∨ Delimited tail) :
    Keyword.startOf? (k.spelling.toList ++ tail) = some k := by
  by_cases hk : k = .wo
  · subst hk
    cases tail with
    | nil => rfl
    | cons c tail =>
      have hc : c ∈ delimiters := h.resolve_left (fun hne => hne rfl) c rfl
      simp only [delimiters, List.mem_cons, List.not_mem_nil, or_false] at hc
      rcases hc with rfl | rfl | rfl | rfl | rfl | rfl | rfl | rfl <;> rfl
  · cases k <;> first | rfl | exact absurd rfl hk

theorem readWord_keyword {k : Keyword} (h : k ≠ .wo ∨ Delimited tail)
    (hk : k.spelling.toList ++ tail = c :: cs) :
    readWord c cs = ⟨.keyword k, k.spelling.toList, tail⟩ := by
  rw [readWord, ← hk, k.startOf?_spelling h]
  simp [← String.length_toList]

end Words

/-! ### Literals and marks -/

section Literals

variable {c : Char} {cs tail : List Char}

theorem digitValue?_of_isDigit (h : c.isDigit = true) :
    digitValue? c = some (c.toNat - '0'.toNat) := by
  obtain ⟨hlow, hhigh⟩ := Char.isDigit_iff_toNat.1 h
  exact if_pos ⟨hlow, hhigh⟩

/-- The digits of a number denote it. -/
theorem digitsValue_toDigits (n : Nat) : digitsValue (Nat.toDigits 10 n) = n := by
  have hvalue : ∀ (cs : List Char) (k : Nat), (∀ c ∈ cs, c.isDigit = true) →
      cs.foldl (fun n c => n * 10 + (digitValue? c).getD 0) k = Nat.ofDigitChars 10 cs k := by
    intro cs
    induction cs with
    | nil => exact fun _ _ => rfl
    | cons c cs ih =>
      intro k hcs
      rw [List.foldl_cons, ih _ fun x hx => hcs x (List.mem_cons_of_mem c hx),
        digitValue?_of_isDigit (hcs c List.mem_cons_self), Nat.ofDigitChars_cons, Nat.mul_comm]
      rfl
  rw [digitsValue, hvalue _ 0 fun c hc => Nat.isDigit_of_mem_toDigits (by decide) (by decide) hc]
  exact Nat.ofDigitChars_ten_toDigits

theorem readDigits_append (hcs : ∀ c ∈ cs, isDigit c = true) (htail : Delimited tail) :
    readDigits (cs ++ tail) = ⟨digitsValue cs, cs, tail⟩ :=
  readDigits_run hcs fun c hc => isDigit_delimiter c (htail c hc)

/-- How the character `c` is written in a string that `close` ends. -/
def escapedIn (close c : Char) : List Char :=
  if c = '\\' then ['\\', '\\']
  else if c = close then ['\\', close]
  else if c = '\n' then ['\\', 'n']
  else if c = '\t' then ['\\', 't']
  else [c]

/-- A character of a string is read as it was written. -/
theorem readString_escaped {close : Char} (hclose : close ∈ ['"', '」']) (c : Char)
    (cs : List Char) :
    (readString close (escapedIn close c ++ cs)).value = (readString close cs).value.map (c :: ·) ∧
      (readString close (escapedIn close c ++ cs)).rest = (readString close cs).rest := by
  by_cases hspecial : c ∈ ['\\', close, '\n', '\t']
  · simp only [List.mem_cons, List.not_mem_nil, or_false] at hspecial hclose
    rcases hclose with rfl | rfl <;> rcases hspecial with rfl | rfl | rfl | rfl <;>
      exact ⟨rfl, rfl⟩
  · simp only [List.mem_cons, List.not_mem_nil, or_false, not_or] at hspecial
    obtain ⟨hescape, hquote, hbreak, htab⟩ := hspecial
    rw [escapedIn, if_neg hescape, if_neg hquote, if_neg hbreak, if_neg htab,
      List.singleton_append, readString, if_neg hbreak, if_neg hquote]
    · exact ⟨rfl, rfl⟩
    · exact fun h _ => hescape h
    · exact fun _ _ h _ => hescape h

theorem readString_flatMap {close : Char} (hclose : close ∈ ['"', '」']) (text tail : List Char) :
    (readString close (text.flatMap (escapedIn close) ++ close :: tail)).value = some text ∧
      (readString close (text.flatMap (escapedIn close) ++ close :: tail)).rest = tail := by
  induction text with
  | nil =>
    simp only [List.mem_cons, List.not_mem_nil, or_false] at hclose
    rcases hclose with rfl | rfl <;> exact ⟨rfl, rfl⟩
  | cons c text ih =>
    obtain ⟨hvalue, hrest⟩ :=
      readString_escaped hclose c (text.flatMap (escapedIn close) ++ close :: tail)
    rw [List.flatMap_cons, List.append_assoc, hvalue, hrest, ih.1, ih.2]
    exact ⟨rfl, rfl⟩

theorem readCommand_append (h : ∀ c ∈ cs, c ≠ '\n' ∧ c ≠ '】') (tail : List Char) :
    (readCommand (cs ++ '】' :: tail)).value = some cs ∧
      (readCommand (cs ++ '】' :: tail)).rest = tail := by
  induction cs with
  | nil => exact ⟨rfl, rfl⟩
  | cons c cs ih =>
    obtain ⟨hbreak, hclose⟩ := h c List.mem_cons_self
    obtain ⟨hvalue, hrest⟩ := ih fun x hx => h x (List.mem_cons_of_mem c hx)
    rw [List.cons_append, readCommand, if_neg hbreak, if_neg hclose]
    exact ⟨congrArg (Option.map (c :: ·)) hvalue, hrest⟩

theorem readMark?_of_lookup (hsingle : Symbol.singles.lookup c = some s)
    (hend : Symbol.beforeEquals.lookup c = none ∨ Delimited tail) :
    readMark? c tail = some ⟨s, [c], tail⟩ := by
  rw [readMark?.eq_def, hsingle]
  split
  · rfl
  · rename_i e rest
    split
    · rename_i hequals
      rcases hend with hbefore | htail
      · rw [hbefore]
        rfl
      · rw [isEqualsSign_delimiter e (htail e rfl)] at hequals
        cases hequals
    · rfl

theorem readMark?_eq_none (hsingle : Symbol.singles.lookup c = none)
    (hbefore : Symbol.beforeEquals.lookup c = none) : readMark? c tail = none := by
  rw [readMark?.eq_def, hsingle, hbefore]
  split
  · rfl
  · split <;> rfl

end Literals

/-! ### Tokens -/

/-- A scanner before the text `cs ++ tail` reads the token `t` and then stands
before `tail`. -/
structure Spells (cs : List Char) (t : Token) (tail : List Char) : Prop where
  opens : Scanner.OpensToken (cs ++ tail)
  reads : ∀ (s : Scanner) (c : Char) (rest : List Char), s.rest = c :: rest →
    cs ++ tail = c :: rest → ∃ span pos, s.readToken c rest =
      (.ok ⟨t, span⟩, { s with rest := tail, pos := pos, depth := t.depthAfter s.depth })

/-- The characters that begin no token, and the one that does not always. -/
def fillers : List Char :=
  [' ', '\t', '　', '|', '｜', '│', '⎿', '└', '\n', '\r', '#', '＃', '/']

section Spelling

variable {c : Char} {cs tail : List Char}

theorem opensToken_cons (h : c ∉ fillers) : Scanner.OpensToken (c :: cs) := by
  have hne : ∀ d ∈ fillers, c ≠ d := fun d hd heq => h (heq ▸ hd)
  refine ⟨?_, ?_⟩
  · rw [Scanner.isBare.eq_def]
    split
    · rename_i heq
      cases heq
    · rename_i heq
      exact absurd (List.cons.inj heq).1 (hne _ (by decide))
    · rename_i heq
      exact absurd (List.cons.inj heq).1 (hne _ (by decide))
    · rw [Scanner.startsComment.eq_def]
      split
      · rename_i heq
        exact absurd (List.cons.inj heq).1 (hne _ (by decide))
      · rename_i heq
        exact absurd (List.cons.inj heq).1 (hne _ (by decide))
      · rename_i heq
        exact absurd (List.cons.inj heq).1 (hne _ (by decide))
      · rfl
  · refine List.dropWhile_cons_of_neg ?_
    simp only [fillers, List.mem_cons, not_or] at h
    simp [Scanner.isMargin, Scanner.marginWidth?, h]

theorem not_mem_fillers_of_isNameStart (h : isNameStart c = true) : c ∉ fillers := by
  have hfillers : ∀ d ∈ fillers, isNameStart d = false :=
    List.all_iff_forall_prop.1 (by decide)
  intro hmem
  rw [hfillers c hmem] at h
  cases h

theorem readToken_word {s : Scanner} (hstart : isNameStart c = true) (hdigit : isDigit c = false)
    (hmark : Symbol.singles.lookup c = none) :
    s.readToken c cs = (.ok ⟨(readWord c cs).value, s.spanTo (s.after (readWord c cs))⟩,
      s.after (readWord c cs)) := by
  have hne : ∀ d, isNameStart d = false → c ≠ d := by
    rintro d hd rfl
    rw [hstart] at hd
    cases hd
  have hbefore : Symbol.beforeEquals.lookup c = none := by
    have hmarks : ∀ p ∈ Symbol.beforeEquals, isNameStart p.1 = false := by decide
    rw [List.lookup_eq_none_iff]
    exact fun p hp => by simpa using hne p.1 (hmarks p hp)
  have hplain : c ∉ ['"', '「', '【'] := by
    have hquotes : ∀ d ∈ ['"', '「', '【'], isNameStart d = false :=
      List.all_iff_forall_prop.1 (by decide)
    exact fun hmem => hne c (hquotes c hmem) rfl
  rw [Scanner.readToken_plain hplain hdigit, readMark?_eq_none hmark hbefore]
  exact if_pos hstart

theorem spells_name (h : IsName cs) (htail : Delimited tail) :
    Spells cs (.ident (String.ofList cs)) tail := by
  cases cs with
  | nil => exact h.elim
  | cons x xs =>
    obtain ⟨hstart, hdigit, hmark, -⟩ := id h
    refine ⟨opensToken_cons (not_mem_fillers_of_isNameStart hstart), ?_⟩
    intro s c rest hs heq
    rw [List.cons_append] at heq
    obtain ⟨rfl, rfl⟩ := List.cons.inj heq
    rw [readToken_word hstart hdigit hmark, readWord_name h htail]
    exact ⟨_, _, rfl⟩

theorem Keyword.exists_cons (k : Keyword) : ∃ c cs, k.spelling.toList = c :: cs ∧
    isNameStart c = true ∧ isDigit c = false ∧ Symbol.singles.lookup c = none := by
  cases k <;> exact ⟨_, _, rfl, by decide, by decide, by decide⟩

theorem spells_keyword (k : Keyword) (h : k ≠ .wo ∨ Delimited tail) :
    Spells k.spelling.toList (.keyword k) tail := by
  obtain ⟨x, xs, hk, hstart, hdigit, hmark⟩ := k.exists_cons
  refine ⟨?_, ?_⟩
  · rw [hk]
    exact opensToken_cons (not_mem_fillers_of_isNameStart hstart)
  · intro s c rest hs heq
    have hword := readWord_keyword h heq
    obtain rfl : x = c := by
      rw [hk] at heq
      exact (List.cons.inj heq).1
    rw [readToken_word hstart hdigit hmark, hword]
    exact ⟨_, _, rfl⟩

theorem spells_digits (hne : cs ≠ []) (hcs : ∀ c ∈ cs, isDigit c = true)
    (hmax : (digitsValue cs : Int) ≤ Text.maxInt) (htail : Delimited tail) :
    Spells cs (.int (digitsValue cs)) tail := by
  obtain ⟨x, xs, rfl⟩ := List.exists_cons_of_ne_nil hne
  have hdigit : isDigit x = true := hcs x List.mem_cons_self
  refine ⟨?_, ?_⟩
  · have hfillers : ∀ d ∈ fillers, isDigit d = false :=
      List.all_iff_forall_prop.1 (by decide)
    exact opensToken_cons fun hmem => absurd (hfillers x hmem) (by simp [hdigit])
  · intro s c rest hs heq
    obtain rfl : x = c := (List.cons.inj heq).1
    rw [Scanner.readToken_digit hdigit, Scanner.readInteger_eq, hs, ← heq,
      readDigits_append hcs htail, if_pos hmax]
    exact ⟨_, _, rfl⟩

/-- The digits of a number spell it. -/
theorem spells_int (n : Nat) (hmax : (n : Int) ≤ Text.maxInt) (htail : Delimited tail) :
    Spells (Nat.toDigits 10 n) (.int n) tail := by
  have hdigits : ∀ c ∈ Nat.toDigits 10 n, isDigit c = true := by
    intro c hc
    rw [isDigit, digitValue?_of_isDigit (Nat.isDigit_of_mem_toDigits (by decide) (by decide) hc)]
    rfl
  have hvalue := digitsValue_toDigits n
  have hspells := spells_digits Nat.toDigits_ne_nil hdigits (hvalue.symm ▸ hmax) htail
  rwa [hvalue] at hspells

/-- A text in quotes, with what is escaped in it. -/
theorem spells_quoted {quote close : Char} (hquote : (quote, close) ∈ quotes) (text : List Char) :
    Spells (quote :: (text.flatMap (escapedIn close) ++ [close])) (.str (String.ofList text))
      tail := by
  have htext : quote :: (text.flatMap (escapedIn close) ++ [close]) ++ tail =
      quote :: (text.flatMap (escapedIn close) ++ close :: tail) := by
    simp
  have hclose : close ∈ ['"', '」'] := List.mem_map_of_mem (f := Prod.snd) hquote
  obtain ⟨hvalue, hrest⟩ := readString_flatMap hclose text tail
  refine ⟨?_, ?_⟩
  · rw [htext]
    simp only [quotes, List.mem_cons, Prod.mk.injEq, List.not_mem_nil, or_false] at hquote
    rcases hquote with ⟨rfl, -⟩ | ⟨rfl, -⟩ <;> exact opensToken_cons (by decide)
  · intro s c rest hs heq
    obtain ⟨rfl, rfl⟩ := List.cons.inj (htext.symm.trans heq)
    rw [Scanner.readToken_quote hquote, Scanner.readQuoted, hvalue, hrest]
    exact ⟨_, _, rfl⟩

theorem spells_str (text : String) : Spells (strLiteral text).toList (.str text) tail := by
  have hspells : Spells _ (.str (String.ofList text.toList)) tail :=
    spells_quoted List.mem_cons_self text.toList
  have htext : (strLiteral text).toList = '"' :: (text.toList.flatMap (escapedIn '"') ++ ['"']) := by
    simp [strLiteral, show escaped = escapedIn '"' from rfl]
  rwa [String.ofList_toList, ← htext] at hspells

theorem spells_command (text : String) (h : IsCommandText text.toList) :
    Spells ("【" ++ text ++ "】").toList (.command text) tail := by
  have htext : ("【" ++ text ++ "】").toList ++ tail = '【' :: (text.toList ++ '】' :: tail) := by
    simp
  refine ⟨?_, ?_⟩
  · rw [htext]
    exact opensToken_cons (by decide)
  · intro s c rest hs heq
    obtain ⟨rfl, rfl⟩ := List.cons.inj (htext.symm.trans heq)
    obtain ⟨hvalue, hrest⟩ := readCommand_append h.1 tail
    rw [Scanner.readToken_bracket, Scanner.readBracketed, hvalue, hrest]
    dsimp only
    rw [h.2, String.ofList_toList]
    exact ⟨_, _, rfl⟩

theorem spells_mark (rest taken : List Char) (hcs : cs ++ tail = c :: rest)
    (hopens : Scanner.OpensToken (c :: rest)) (hplain : c ∉ ['"', '「', '【'] ∧ isDigit c = false)
    (hread : readMark? c rest = some ⟨s, taken, tail⟩) : Spells cs (.symbol s) tail := by
  refine ⟨hcs ▸ hopens, ?_⟩
  intro t c' rest' ht heq
  obtain ⟨rfl, rfl⟩ := List.cons.inj (hcs.symm.trans heq)
  rw [Scanner.readToken_plain hplain.1 hplain.2, hread]
  exact ⟨_, _, rfl⟩

/-- A mark of one character, which is not read together with the next one. -/
theorem spells_single (c : Char) (hc : cs = [c]) (hfiller : c ∉ fillers)
    (hplain : c ∉ ['"', '「', '【'] ∧ isDigit c = false) (hs : Symbol.singles.lookup c = some s)
    (hend : Symbol.beforeEquals.lookup c = none ∨ Delimited tail) : Spells cs (.symbol s) tail :=
  spells_mark tail [c] (hc ▸ rfl) (opensToken_cons hfiller) hplain (readMark?_of_lookup hs hend)

/-- A mark that ends with an equals sign. -/
theorem spells_double (c e : Char) (hc : cs = [c, e]) (he : isEqualsSign e = true)
    (hfiller : c ∉ fillers) (hplain : c ∉ ['"', '「', '【'] ∧ isDigit c = false)
    (hs : Symbol.beforeEquals.lookup c = some s) : Spells cs (.symbol s) tail := by
  have hread : readMark? c (e :: tail) = some ⟨s, [c, e], tail⟩ := by
    rw [readMark?.eq_def, hs]
    exact if_pos he
  exact spells_mark (e :: tail) [c, e] (hc ▸ rfl) (opensToken_cons hfiller) hplain hread

theorem spells_slash (htail : Delimited tail) :
    Spells Symbol.slash.spelling.toList (.symbol .slash) tail := by
  refine spells_mark (c := '/') tail ['/'] rfl ⟨?_, rfl⟩ (by decide)
    (readMark?_of_lookup rfl (.inl rfl))
  cases tail with
  | nil => rfl
  | cons c tail =>
    have hc : c ∈ delimiters := htail c rfl
    simp only [delimiters, List.mem_cons, List.not_mem_nil, or_false] at hc
    rcases hc with rfl | rfl | rfl | rfl | rfl | rfl | rfl | rfl <;> rfl

/-- Whether nothing that comes after the token goes on with it. -/
def Token.endsItself : Token → Bool
  | .symbol .plus | .symbol .minus | .symbol .leftParen | .symbol .leftBracket => true
  | .keyword k => k ≠ .wo
  | _ => false

/-- Each mark is read back, alone or before a delimiter. -/
theorem spells_symbol (s : Symbol) (hend : (Token.symbol s).endsItself = true ∨ Delimited tail) :
    Spells s.spelling.toList (.symbol s) tail := by
  cases s with
  | equal | notEqual | lessEqual | greaterEqual =>
    exact spells_double _ _ rfl rfl (by decide) (by decide) rfl
  | slash => exact spells_slash (hend.resolve_left nofun)
  | plus | minus | leftParen | leftBracket =>
    exact spells_single _ rfl (by decide) (by decide) rfl (.inl rfl)
  | _ => exact spells_single _ rfl (by decide) (by decide) rfl (.inr (hend.resolve_left nofun))

/-- The token as it is written in a program. -/
def Token.written : Token → List Char
  | .str text => (strLiteral text).toList
  | t => t.spelling.toList

theorem toList_toString_nat (n : Nat) : (toString (n : Int)).toList = Nat.toDigits 10 n := by
  rw [show toString (n : Int) = toString n from rfl, Nat.toString_eq_ofList_toDigits,
    String.toList_ofList]

/-- What was written is read again. -/
theorem Token.spells {t : Token} (ht : t.IsWritten) (hsolid : t.isSolid = true)
    (hend : t.endsItself = true ∨ Delimited tail) : Spells t.written t tail := by
  cases t with
  | ident name =>
    have hname := spells_name ht (hend.resolve_left nofun)
    rw [String.ofList_toList] at hname
    exact hname
  | int value =>
    obtain ⟨n, rfl⟩ := Int.eq_ofNat_of_zero_le ht.1
    rw [show (Token.int n).written = Nat.toDigits 10 n from toList_toString_nat n]
    exact spells_int n ht.2 (hend.resolve_left nofun)
  | str text => exact spells_str text
  | command text => exact spells_command text ht
  | symbol s => exact spells_symbol s hend
  | keyword k => exact spells_keyword k (hend.imp_left fun h => of_decide_eq_true h)
  | newline | indent | dedent | eof => cases hsolid

end Spelling

end Dncl
