/-
Dncl/Proofs/Variants.lean

A text in which every token is spelled in a way of one's own.

`t.SpelledAs cs` says that `cs` is one of the spellings of the token `t`: signs
and digits are ASCII or full-width, a comparison of two characters in any mix
of the two, and a string stands in straight quotes or in corner brackets, with
its special characters escaped.  Joined by single blanks, the spellings are
read as the tokens that they spell:

    tokens of (c₁ ++ " " ++ c₂ ++ " " ++ … ++ cₙ)  =  t₁, t₂, …, tₙ, newline, eof.

Design.  The spellings are listed here as a reader would list them, and not by
the tables that the scanner looks a character up in.  A blank cannot go on with
any token, so each spelling is read by itself (`Token.SpelledAs.spells`), and
the runs of the tokens are put together.
-/
import Mathlib.Data.List.GetD
import Mathlib.Data.List.Forall2
import Dncl.Proofs.Words
import Mathlib.Data.Nat.Digits.Defs
import Mathlib.Tactic.IntervalCases

namespace Dncl

/-! ### The spellings of a token -/

/-- All spellings of a symbol. -/
def Symbol.spellings : Symbol → List String
  | plus => ["+", "＋"]
  | minus => ["-", "－", "−"]
  | times => ["*", "＊", "×"]
  | slash => ["/", "／"]
  | intDiv => ["÷"]
  | percent => ["%", "％"]
  | equal => ["==", "=＝", "＝=", "＝＝"]
  | notEqual => ["!=", "!＝", "！=", "！＝", "≠"]
  | less => ["<", "＜"]
  | lessEqual => ["<=", "<＝", "＜=", "＜＝", "≦", "≤"]
  | greater => [">", "＞"]
  | greaterEqual => [">=", ">＝", "＞=", "＞＝", "≧", "≥"]
  | assign => ["=", "＝", "←"]
  | comma => [",", "，", "、"]
  | colon => [":", "："]
  | leftParen => ["(", "（"]
  | rightParen => [")", "）"]
  | leftBracket => ["[", "［"]
  | rightBracket => ["]", "］"]

/-- The two forms of a digit. -/
def digitForms (d : Nat) : List Char :=
  [['0', '０'], ['1', '１'], ['2', '２'], ['3', '３'], ['4', '４'],
    ['5', '５'], ['6', '６'], ['7', '７'], ['8', '８'], ['9', '９']].getD d []

/-- The number with the given decimal digits, from the first to the last. -/
def ofDecimal (ds : List Nat) : Nat :=
  Nat.ofDigits 10 ds.reverse

/-- A name that no keyword cuts: it begins with a letter or `_`, goes on with
letters, numerals and `_`, and no keyword stands anywhere in it. -/
structure IsUncutName (cs : List Char) : Prop where
  starts : ∃ c rest, cs = c :: rest ∧ isNameStart c = true
  goes : ∀ c ∈ cs, isNameChar c = true
  uncut : ∀ k : Keyword, ¬k.spelling.toList <:+: cs

/-- The characters are one of the spellings of the token.  Layout and the end
mark have none. -/
inductive Token.SpelledAs : Token → List Char → Prop
  | ident {cs} : IsUncutName cs → SpelledAs (.ident (String.ofList cs)) cs
  | int {ds cs} : ds ≠ [] → ds.Forall₂ (fun d c => c ∈ digitForms d) cs →
      (ofDecimal ds : Int) ≤ Text.maxInt → SpelledAs (.int (ofDecimal ds)) cs
  | str {quote close} (text : List Char) : (quote, close) ∈ quotes →
      SpelledAs (.str (String.ofList text)) (quote :: (text.flatMap (escapedIn close) ++ [close]))
  | command {cs} : '】' ∉ cs → '\n' ∉ cs → Text.trim cs = cs →
      SpelledAs (.command (String.ofList cs)) ('【' :: (cs ++ ['】']))
  | symbol {s cs} : String.ofList cs ∈ s.spellings → SpelledAs (.symbol s) cs
  | keyword (k : Keyword) : SpelledAs (.keyword k) k.spelling.toList

/-! ### Names -/

section Names

variable {c : Char} {cs : List Char}

/-- No digit begins a name. -/
theorem isNameStart_of_isDigit (h : isDigit c = true) : isNameStart c = false := by
  have hascii : ∀ n, 48 ≤ n → n ≤ 57 → isNameStart (Char.ofNat n) = false := by
    intro n hlow hhigh
    interval_cases n <;> rfl
  have hwide : ∀ n, 65296 ≤ n → n ≤ 65305 → isNameStart (Char.ofNat n) = false := by
    intro n hlow hhigh
    interval_cases n <;> decide +kernel
  rw [isDigit, digitValue?] at h
  rw [← Char.ofNat_toNat c]
  split at h
  · rename_i hrange
    exact hascii _ hrange.1 hrange.2
  · split at h
    · rename_i hrange
      exact hwide _ hrange.1 hrange.2
    · cases h

/-- No mark begins a name. -/
theorem lookup_of_isNameStart (h : isNameStart c = true) : Symbol.singles.lookup c = none := by
  have hmarks : ∀ p ∈ Symbol.singles, isNameStart p.1 = false := by decide
  rw [List.lookup_eq_none_iff]
  intro p hp
  have hne : c ≠ p.1 := by
    rintro rfl
    rw [hmarks p hp] at h
    cases h
  simpa using hne

theorem startOf?_eq_none (h : ∀ k : Keyword, ¬k.spelling.toList <:+: cs) :
    Keyword.startOf? cs = none := by
  rw [Keyword.startOf?, List.find?_eq_none]
  intro k _ hk
  exact h k (List.isPrefixOf_iff_prefix.1 hk).isInfix

theorem goesOn_of_uncut (hgoes : ∀ c ∈ cs, isNameChar c = true)
    (huncut : ∀ k : Keyword, ¬k.spelling.toList <:+: cs) : GoesOn cs := by
  induction cs with
  | nil => trivial
  | cons c cs ih =>
    have htail : ∀ k : Keyword, ¬k.spelling.toList <:+: cs :=
      fun k hk => huncut k (hk.trans (List.suffix_cons c cs).isInfix)
    refine ⟨?_, ih (fun x hx => hgoes x (List.mem_cons_of_mem c hx)) htail⟩
    rw [endsName, hgoes c List.mem_cons_self, startOf?_eq_none huncut]
    simp

theorem IsUncutName.isName (h : IsUncutName cs) : IsName cs := by
  obtain ⟨c, rest, rfl, hstart⟩ := h.starts
  have hdigit : isDigit c = false := by
    rw [Bool.eq_false_iff]
    intro hdigit
    rw [isNameStart_of_isDigit hdigit] at hstart
    cases hstart
  exact ⟨hstart, hdigit, lookup_of_isNameStart hstart, startOf?_eq_none h.uncut,
    (goesOn_of_uncut h.goes h.uncut).2⟩

end Names

/-! ### Numbers and marks -/

section Marks

variable {cs tail : List Char}

theorem digitValue?_of_form {d : Nat} {c : Char} (h : c ∈ digitForms d) :
    digitValue? c = some d := by
  have hforms : ∀ d < 10, (digitForms d).all (digitValue? · == some d) = true := by decide
  by_cases hd : d < 10
  · exact eq_of_beq (List.all_eq_true.1 (hforms d hd) c h)
  · rw [digitForms, List.getD_eq_default _ _ (Nat.le_of_not_lt hd)] at h
    cases h

/-- A run of digits denotes the number with these digits. -/
theorem digitsValue_of_forms {ds : List Nat} (h : ds.Forall₂ (fun d c => c ∈ digitForms d) cs) :
    digitsValue cs = ofDecimal ds := by
  have hvalue : ∀ n, cs.foldl (fun n c => n * 10 + (digitValue? c).getD 0) n =
      ds.foldl (fun n d => n * 10 + d) n := by
    intro n
    induction h generalizing n with
    | nil => rfl
    | cons hd _ ih =>
      rw [List.foldl_cons, List.foldl_cons, digitValue?_of_form hd]
      exact ih _
  rw [digitsValue, hvalue, ofDecimal, Nat.ofDigits_eq_foldr, List.foldr_reverse]
  simp [Nat.mul_comm, Nat.add_comm]

theorem isDigit_of_forms {ds : List Nat} (h : ds.Forall₂ (fun d c => c ∈ digitForms d) cs) :
    ∀ c ∈ cs, isDigit c = true := by
  induction h with
  | nil => nofun
  | cons hd _ ih =>
    intro c hc
    rcases List.mem_cons.1 hc with rfl | hc
    · rw [isDigit, digitValue?_of_form hd]
      rfl
    · exact ih c hc

theorem spells_int_forms {ds : List Nat} (hne : ds ≠ [])
    (h : ds.Forall₂ (fun d c => c ∈ digitForms d) cs)
    (hmax : (ofDecimal ds : Int) ≤ Text.maxInt) (htail : Delimited tail) :
    Spells cs (.int (ofDecimal ds)) tail := by
  have hcs : cs ≠ [] := by
    rintro rfl
    exact hne (List.forall₂_nil_right_iff.1 h)
  rw [← digitsValue_of_forms h] at hmax ⊢
  exact spells_digits hcs (isDigit_of_forms h) hmax htail

/-- The characters are looked up as the symbol `s`: one by itself, or one
before an equals sign. -/
def Symbol.isRead (s : Symbol) : List Char → Bool
  | [c] => Symbol.singles.lookup c == some s
  | [c, e] => isEqualsSign e && Symbol.beforeEquals.lookup c == some s
  | _ => false

theorem Symbol.isRead_spellings (s : Symbol) :
    (s.spellings.all fun text => s.isRead text.toList) = true := by
  cases s <;> decide

theorem mem_of_lookup {c : Char} {s : Symbol} {marks : List (Char × Symbol)}
    (h : marks.lookup c = some s) : (c, s) ∈ marks := by
  obtain ⟨before, after, rfl, -⟩ := List.lookup_eq_some_iff.1 h
  exact List.mem_append_right _ List.mem_cons_self

theorem spells_variant {s : Symbol} (h : String.ofList cs ∈ s.spellings) (htail : Delimited tail) :
    Spells cs (.symbol s) tail := by
  have hread := List.all_eq_true.1 s.isRead_spellings _ h
  rw [String.toList_ofList, Symbol.isRead.eq_def] at hread
  split at hread
  · rename_i c
    have hc : Symbol.singles.lookup c = some s := eq_of_beq hread
    have hmarks : ∀ p ∈ Symbol.singles, p.1 ∉ ['"', '「', '【'] ∧ isDigit p.1 = false := by decide
    have hfillers : ∀ p ∈ Symbol.singles, p.1 ∈ fillers → p = ('/', .slash) := by decide
    by_cases hslash : c ∈ fillers
    · obtain ⟨rfl, rfl⟩ := Prod.mk.inj (hfillers _ (mem_of_lookup hc) hslash)
      exact spells_slash htail
    · exact spells_single c rfl hslash (hmarks _ (mem_of_lookup hc)) hc (.inr htail)
  · rename_i c e
    rw [Bool.and_eq_true] at hread
    have hc : Symbol.beforeEquals.lookup c = some s := eq_of_beq hread.2
    have hmarks : ∀ p ∈ Symbol.beforeEquals,
        p.1 ∉ fillers ∧ p.1 ∉ ['"', '「', '【'] ∧ isDigit p.1 = false := by decide
    obtain ⟨hfiller, hplain⟩ := hmarks _ (mem_of_lookup hc)
    exact spells_double c e rfl hread.1 hfiller hplain hc
  · cases hread

end Marks

/-! ### Joined spellings -/

/-- Whichever spelling was chosen, the token is read from it. -/
theorem Token.SpelledAs.spells {t : Token} {cs tail : List Char} (h : t.SpelledAs cs)
    (htail : Delimited tail) : Spells cs t tail := by
  cases h with
  | ident hname => exact spells_name hname.isName htail
  | int hne hforms hmax => exact spells_int_forms hne hforms hmax htail
  | str text hquote => exact spells_quoted hquote text
  | @command cs hclose hbreak htrim =>
    have htext : IsCommandText (String.ofList cs).toList := by
      rw [String.toList_ofList]
      exact ⟨fun c hc => ⟨fun heq => hbreak (heq ▸ hc), fun heq => hclose (heq ▸ hc)⟩, htrim⟩
    have hspells : Spells _ _ tail := spells_command (String.ofList cs) htext
    rw [show ("【" ++ String.ofList cs ++ "】").toList = '【' :: (cs ++ ['】']) by simp] at hspells
    exact hspells
  | symbol hs => exact spells_variant hs htail
  | keyword k => exact spells_keyword k (.inr htail)

theorem Token.SpelledAs.isSolid {t : Token} {cs : List Char} (h : t.SpelledAs cs) :
    t.isSolid = true := by
  cases h <;> rfl

section Joined

variable (x : Token × List Char) (xs : List (Token × List Char))

/-- The spellings of the tokens, joined by single blanks. -/
def joined (xs : List (Token × List Char)) : List Char :=
  [' '].intercalate (xs.map Prod.snd)

theorem joined_cons_cons (y : Token × List Char) :
    joined (x :: y :: xs) = x.2 ++ ' ' :: joined (y :: xs) := by
  simp [joined, List.intercalate]

theorem joined_singleton : joined [x] = x.2 ++ [] := by
  simp [joined, List.intercalate]

/-- Behind the first spelling comes a blank or the end. -/
theorem exists_joined_cons : ∃ tail, Delimited tail ∧ joined (x :: xs) = x.2 ++ tail := by
  cases xs with
  | nil => exact ⟨[], delimited_nil, joined_singleton x⟩
  | cons y ys => exact ⟨_, delimited_cons (by decide), joined_cons_cons x ys y⟩

variable {x xs}

/-- The tokens are read one after the other. -/
theorem runs_joined (h : ∀ y ∈ x :: xs, y.1.SpelledAs y.2) (d : Nat) (is : List Nat)
    (used : Bool) : ∃ e, Runs (.inLine (joined (x :: xs)) d is used) ((x :: xs).map Prod.fst)
      (.inLine [] e is true) := by
  induction xs generalizing x d used with
  | nil =>
    have hx := (h x List.mem_cons_self).spells delimited_nil
    rw [joined_singleton]
    exact ⟨_, runs_token hx rfl⟩
  | cons y ys ih =>
    obtain ⟨e, hrun⟩ := ih (fun z hz => h z (List.mem_cons_of_mem x hz)) (x.1.depthAfter d) true
    have hblank : Delimited (' ' :: joined (y :: ys)) := delimited_cons (by decide)
    have hx := (h x List.mem_cons_self).spells hblank
    rw [joined_cons_cons]
    exact ⟨e, (runs_token hx rfl).trans (runs_gap.trans hrun)⟩

theorem eof_not_mem_tokens (h : ∀ y ∈ xs, y.1.SpelledAs y.2) :
    Token.eof ∉ xs.map Prod.fst ++ [.newline] := by
  intro hmem
  rw [List.mem_append, List.mem_map] at hmem
  obtain ⟨y, hy, heof⟩ | hmem := hmem
  · exact Token.ne_of_isSolid (h y hy).isSolid rfl heof
  · simp at hmem

end Joined

/-- Lexing undoes spelling: whatever spellings are chosen for the tokens, the
text that they make up, joined by single blanks, is read as these tokens, the
end of the line and the end mark. -/
theorem tokenize_undoes_spelling (xs : List (Token × List Char)) (hne : xs ≠ [])
    (h : ∀ x ∈ xs, x.1.SpelledAs x.2) :
    ∃ lexemes, tokenize (String.ofList (joined xs)) = .ok lexemes ∧
      lexemes.map Lexeme.token = xs.map Prod.fst ++ [.newline, .eof] := by
  obtain ⟨x, xs, rfl⟩ := List.exists_cons_of_ne_nil hne
  obtain ⟨tail, htail, hjoined⟩ := exists_joined_cons x xs
  have hopens : Scanner.OpensToken (joined (x :: xs)) :=
    hjoined ▸ ((h x List.mem_cons_self).spells htail).opens
  have hmargin : Runs (.atLine (joined (x :: xs)) [0]) []
      (.inLine (joined (x :: xs)) 0 [0] false) :=
    runs_margin (m := 0) hopens (List.pairwise_singleton _ _)
  obtain ⟨e, hrun⟩ := runs_joined h 0 [0] false
  obtain ⟨pos, hstream⟩ := (hmargin.trans hrun) 0
  -- the end of the text ends the line, even inside brackets
  have hend : ((Place.inLine [] e [0] true).scanner pos).step =
      .again ((Place.inLine [] e [0] true).scanner pos).finish := rfl
  rw [Scanner.stream_of_again hend, stream_finish, ← Stream.prepend_append, List.nil_append]
    at hstream
  have hstart : Scanner.ofText (String.ofList (joined (x :: xs))) =
      (Place.atLine (joined (x :: xs)) [0]).scanner 0 := by
    rw [Scanner.ofText, String.toList_ofList]
    rfl
  obtain ⟨lexemes, htokens, hmap⟩ := Scanner.tokens_of_stream hstream (eof_not_mem_tokens h)
  refine ⟨lexemes, ?_, ?_⟩
  · rw [tokenize, hstart, htokens]
  · rw [hmap, List.append_assoc]
    rfl

/-- Full-width signs and digits, both kinds of quotes, and a bracket that stays
open. -/
def mixedSpellings : List (Token × List Char) :=
  [(.ident "x", "x".toList), (.symbol .lessEqual, "＜=".toList), (.int 10, "１0".toList),
    (.symbol .leftParen, "（".toList), (.str "a\n」\"", "「a\\n\\」\"」".toList),
    (.command "入 力", "【入 力】".toList), (.str "「\"", "\"「\\\"\"".toList),
    (.keyword .wo, "を".toList)]

theorem mixedSpellings_spelled : ∀ x ∈ mixedSpellings, x.1.SpelledAs x.2 := by
  have hname : IsUncutName "x".toList :=
    ⟨⟨'x', [], rfl, rfl⟩, List.all_iff_forall_prop.1 rfl, fun k => by cases k <;> decide⟩
  have hdigits : [1, 0].Forall₂ (fun d c => c ∈ digitForms d) "１0".toList :=
    .cons (by decide) (.cons (by decide) .nil)
  have hcorners : ('「', '」') ∈ quotes := by decide
  have hquotes : ('"', '"') ∈ quotes := by decide
  simp only [mixedSpellings, List.forall_mem_cons]
  exact ⟨.ident hname, .symbol (by decide), .int (by simp) hdigits (by decide),
    .symbol (by decide), .str "a\n」\"".toList hcorners,
    @Token.SpelledAs.command "入 力".toList (by decide) (by decide) (by decide),
    .str "「\"".toList hquotes, .keyword .wo, by simp⟩

theorem tokenize_undoes_spelling_mixed :
    ∃ lexemes, tokenize "x ＜= １0 （ 「a\\n\\」\"」 【入 力】 \"「\\\"\" を" = .ok lexemes ∧
      lexemes.map Lexeme.token = [.ident "x", .symbol .lessEqual, .int 10, .symbol .leftParen,
        .str "a\n」\"", .command "入 力", .str "「\"", .keyword .wo, .newline, .eof] :=
  tokenize_undoes_spelling mixedSpellings (by simp [mixedSpellings]) mixedSpellings_spelled

end Dncl
