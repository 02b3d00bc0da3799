/-
Dncl/Proofs/Quoted.lean

Where a string ends.

Between its quotes a string is written in parts: a character that stands for
itself, or a backslash and any character at all (`StringPart`).  The scanner
yields a string exactly if parts and the closing quote come behind the opening
quote, and the string is what the parts stand for; otherwise it yields a fault
at the opening quote.  So a string crosses a line only where a backslash stands
directly before the line break.

Design.  `readString_of_endsString` and `exists_endsString` are the two directions for
the reader.  `Scanner.TextStep` says what a step takes off the text and where it
finds what it yields.  So a scanner has always passed a beginning of the text, with
nothing but layout pending (`Scanner.InText`), and yields only strings of the text,
whatever the faults.
-/
import Dncl.Proofs.Tandem

namespace Dncl

variable {close quote : Char}

/-! ### Parts of a string -/

/-- A part of a string as it is written between the quotes. -/
inductive StringPart where
  /-- A character that stands for itself. -/
  | plain (c : Char)
  /-- A character behind a backslash. -/
  | escaped (c : Char)
  deriving DecidableEq

namespace StringPart

/-- The part as it is written. -/
def written : StringPart → List Char
  | plain c => [c]
  | escaped c => ['\\', c]

/-- The character that the part stands for. -/
def meaning : StringPart → Char
  | plain c => c
  | escaped 'n' => '\n'
  | escaped 't' => '\t'
  | escaped c => c

/-- Whether the part may stand in a string that ends with `close`. -/
def Fits (close : Char) : StringPart → Prop
  | plain c => c ≠ '\\' ∧ c ≠ '\n' ∧ c ≠ close
  | escaped _ => True

theorem meaning_escaped (c : Char) : (escaped c).meaning = unescape c := by
  rw [unescape]
  split
  · subst c
    rfl
  · split
    · subst c
      rfl
    · rename_i hn ht
      rw [meaning]
      · exact hn
      · exact ht

/-- In the parts of a string a line break is always behind a backslash. -/
theorem mem_flatMap_written {parts : List StringPart} (h : ∀ part ∈ parts, part.Fits close) :
    '\n' ∈ parts.flatMap written ↔ escaped '\n' ∈ parts := by
  constructor
  · intro hmem
    obtain ⟨part, hpart, hbreak⟩ := List.mem_flatMap.1 hmem
    cases part with
    | plain c => exact absurd (List.mem_singleton.1 hbreak).symm (h _ hpart).2.1
    | escaped c =>
      obtain rfl : '\n' = c := by simpa [written] using hbreak
      exact hpart
  · exact fun hmem => List.mem_flatMap.2 ⟨_, hmem, by simp [written]⟩

end StringPart

/-- Behind the opening quote come the given parts, the closing quote and `rest`. -/
structure EndsString (close : Char) (cs : List Char) (parts : List StringPart) (rest : List Char) :
    Prop where
  fits : ∀ part ∈ parts, part.Fits close
  text_eq : cs = parts.flatMap StringPart.written ++ close :: rest

section Reader

variable {close : Char} {cs rest : List Char} {parts : List StringPart}

theorem readString_of_endsString (hclose : close ≠ '\\' ∧ close ≠ '\n')
    (h : EndsString close cs parts rest) :
    readString close cs = ⟨some (parts.map StringPart.meaning),
      parts.flatMap StringPart.written ++ [close], rest⟩ := by
  obtain ⟨hfits, rfl⟩ := h
  induction parts with
  | nil => exact (readString_cons hclose.1 rest).trans ((if_neg hclose.2).trans (if_pos rfl))
  | cons part parts ih =>
    have hrest := ih fun p hp => hfits p (List.mem_cons_of_mem _ hp)
    rw [List.flatMap_cons, List.append_assoc]
    cases part with
    | plain c =>
      obtain ⟨hescape, hbreak, hend⟩ := hfits _ List.mem_cons_self
      rw [StringPart.written, List.singleton_append, readString_cons hescape, if_neg hbreak,
        if_neg hend, hrest]
      rfl
    | escaped c =>
      show readString close ('\\' :: c :: (parts.flatMap StringPart.written ++ close :: rest)) = _
      rw [readString, hrest, List.map_cons, StringPart.meaning_escaped]
      rfl

theorem exists_endsString (h : (readString close cs).value.isSome = true) :
    ∃ parts rest, EndsString close cs parts rest := by
  fun_induction readString close cs with
  | case1 => cases h
  | case2 => cases h
  | case3 c cs r ih =>
    obtain ⟨parts, rest, hfits, rfl⟩ := ih (Option.isSome_map.symm.trans h)
    exact ⟨.escaped c :: parts, rest, List.forall_mem_cons.2 ⟨trivial, hfits⟩, rfl⟩
  | case4 => cases h
  | case5 cs hnil hcons hbreak => exact ⟨[], cs, by simp, rfl⟩
  | case6 c cs hnil hcons hbreak hclose r ih =>
    obtain ⟨parts, rest, hfits, rfl⟩ := ih (Option.isSome_map.symm.trans h)
    exact ⟨.plain c :: parts, rest,
      List.forall_mem_cons.2 ⟨⟨ne_escape hnil hcons, hbreak, hclose⟩, hfits⟩, rfl⟩

end Reader

/-! ### Tokens -/

theorem closing_ne (h : (quote, close) ∈ quotes) : close ≠ '\\' ∧ close ≠ '\n' := by
  simp only [quotes, List.mem_cons, Prod.mk.injEq, List.not_mem_nil, or_false] at h
  rcases h with ⟨-, rfl⟩ | ⟨-, rfl⟩ <;> decide

/-- Whether it is a string, or a string that is not closed. -/
def Found.isString : Found → Bool
  | .ok ⟨.str _, _⟩ => true
  | .error ⟨.unterminatedString, _⟩ => true
  | _ => false

namespace Scanner

variable {s t : Scanner} {quote close c : Char} {cs rest : List Char} {parts : List StringPart}

/-- Only a quote begins a string. -/
theorem exists_quote_of_isString (h : Found.isString (s.readToken c cs).1 = true) :
    ∃ close, (c, close) ∈ quotes := by
  have hcase := s.readToken_case c cs
  generalize s.readToken c cs = found at h hcase
  cases hcase with
  | string hquote | openString hquote => exact ⟨_, hquote⟩
  | word =>
    rw [readWord] at h
    split at h <;> cases h
  | _ => cases h

/-- A string that is closed. -/
theorem readToken_of_endsString (hquote : (quote, close) ∈ quotes)
    (h : EndsString close cs parts rest) :
    s.readToken quote cs =
      (.ok ⟨.str (String.ofList (parts.map StringPart.meaning)),
        ⟨s.pos, s.pos + Text.byteSize (quote :: (parts.flatMap StringPart.written ++ [close]))⟩⟩,
      { s with
        rest := rest
        pos := s.pos + Text.byteSize (quote :: (parts.flatMap StringPart.written ++ [close])) }) := by
  rw [readToken_quote hquote, readQuoted, readString_of_endsString (closing_ne hquote) h]
  rfl

/-- A string that is not closed. -/
theorem readToken_of_unterminated (hquote : (quote, close) ∈ quotes)
    (h : ¬ ∃ parts rest, EndsString close cs parts rest) :
    (s.readToken quote cs).1 =
      .error ⟨.unterminatedString, ⟨s.pos, s.pos + quote.utf8Size⟩⟩ := by
  rw [readToken_quote hquote, readQuoted]
  split
  · rename_i value hvalue
    exact absurd (exists_endsString (Option.isSome_iff_exists.2 ⟨value, hvalue⟩)) h
  · rfl

end Scanner

/-! ### Texts -/

/-- The string that was found is one of the text, and if it was found not to be
closed, then it is not. -/
structure Found.IsStringOf (text : List Char) (r : Found) : Prop where
  closed : ∀ value span, r = .ok ⟨.str value, span⟩ →
    ∃ before quote close, ∃ parts : List StringPart, ∃ after, (quote, close) ∈ quotes ∧
      text = before ++ (quote :: (parts.flatMap StringPart.written ++ [close]) ++ after) ∧
      (∀ part ∈ parts, part.Fits close) ∧
      span = ⟨Text.byteSize before, Text.byteSize before +
        Text.byteSize (quote :: (parts.flatMap StringPart.written ++ [close]))⟩ ∧
      value = String.ofList (parts.map StringPart.meaning) ∧
      ('\n' ∈ quote :: (parts.flatMap StringPart.written ++ [close]) ↔ .escaped '\n' ∈ parts)
  unclosed : ∀ span, r = .error ⟨.unterminatedString, span⟩ →
    ∃ before quote close cs, (quote, close) ∈ quotes ∧ text = before ++ quote :: cs ∧
      span = ⟨Text.byteSize before, Text.byteSize before + quote.utf8Size⟩ ∧
      ¬ ∃ parts rest, EndsString close cs parts rest

theorem Found.isStringOf_of_not_isString {text : List Char} {r : Found}
    (h : r.isString = false) : r.IsStringOf text where
  closed value span hr := by
    subst hr
    cases h
  unclosed span hr := by
    subst hr
    cases h

theorem Found.isStringOf_of_layout {text : List Char} {r : Found} (h : r.isSolid = false) :
    r.IsStringOf text := by
  refine Found.isStringOf_of_not_isString (Bool.eq_false_iff.2 fun hstring => ?_)
  rcases r with ⟨cause, span⟩ | ⟨token, span⟩
  · cases cause with
    | unterminatedString => cases h
    | _ => cases hstring
  · cases token with
    | str => cases h
    | _ => cases hstring

namespace Scanner

variable {s t : Scanner} {text before : List Char} {c : Char} {cs : List Char}

theorem quote_ne_break (h : (quote, close) ∈ quotes) : '\n' ≠ quote ∧ '\n' ≠ close := by
  simp only [quotes, List.mem_cons, Prod.mk.injEq, List.not_mem_nil, or_false] at h
  rcases h with ⟨rfl, rfl⟩ | ⟨rfl, rfl⟩ <;> decide

theorem readToken_isStringOf (hs : s.Passed text before) (hrest : s.rest = c :: cs) :
    Found.IsStringOf text (s.readToken c cs).1 := by
  cases hstring : Found.isString (s.readToken c cs).1 with
  | false => exact Found.isStringOf_of_not_isString hstring
  | true =>
    obtain ⟨close, hquote⟩ := exists_quote_of_isString hstring
    by_cases hends : ∃ parts rest, EndsString close cs parts rest
    · obtain ⟨parts, rest, hparts⟩ := hends
      rw [readToken_of_endsString hquote hparts]
      refine ⟨?_, by rintro span ⟨⟩⟩
      rintro value span ⟨⟩
      refine ⟨before, c, close, parts, rest, hquote, ?_, hparts.fits, ?_, rfl, ?_⟩
      · rw [hs.text_eq, hrest, hparts.text_eq]
        simp
      · rw [hs.pos_eq]
      · rw [← StringPart.mem_flatMap_written hparts.fits]
        simp [quote_ne_break hquote]
    · rw [readToken_of_unterminated hquote hends]
      refine ⟨by rintro value span ⟨⟩, ?_⟩
      rintro span ⟨⟩
      exact ⟨before, c, close, cs, hquote, by rw [hs.text_eq, hrest], by rw [hs.pos_eq], hends⟩

/-- What a step takes off the text, and where it finds what it yields: a token that
was pending, layout, or the token that comes next in the line. -/
inductive TextStep (s : Scanner) : List Found → Scanner → Prop
  | waiting {x : Lexeme} {later : List Lexeme} : s.pending = x :: later →
      TextStep s [.ok x] { s with pending := later }
  | layout {rs : List Found} {t : Scanner} (taken : List Char) : s.rest = taken ++ t.rest →
      t.pos = s.pos + Text.byteSize taken →
      (∀ r ∈ rs, r.isSolid = false ∧ s.pos ≤ r.start ∧ r.start ≤ t.pos) →
      (∀ x ∈ t.pending, x.token.isSolid = false ∧ s.pos ≤ x.span.start ∧ x.span.start ≤ t.pos) →
      TextStep s rs t
  | token {t : Scanner} {c : Char} {cs : List Char} (taken : List Char) :
      (s.skipWhile isGap).rest = c :: cs → c :: cs = taken ++ t.rest →
      t.pos = (s.skipWhile isGap).pos + Text.byteSize taken → t.pending = [] →
      TextStep s [((s.skipWhile isGap).readToken c cs).1] t

theorem MarginCase.textStep {p : Progress} (h : MarginCase s p) (hp : s.pending = []) :
    TextStep s p.found.1 p.found.2 := by
  have hrest : s.rest = s.rest.takeWhile isMargin ++ s.pastMargin.rest :=
    List.takeWhile_append_dropWhile.symm
  have hclosed : ∀ x ∈ (s.pastMargin.closeBlocks s.lineWidth).pending,
      x.token.isSolid = false ∧ s.pos ≤ x.span.start ∧ x.span.start ≤ s.pastMargin.pos := by
    intro x hx
    cases List.eq_of_mem_replicate hx
    exact ⟨rfl, Nat.le_add_right _ _, Nat.le_refl _⟩
  cases h with
  | bare =>
    exact .layout _ hrest rfl (by simp [Progress.found]) (by simp [Progress.found, pastMargin, hp])
  | opens =>
    refine .layout _ hrest rfl (by simp [Progress.found]) ?_
    exact List.forall_mem_singleton.2 ⟨rfl, Nat.le_refl _, Nat.le_add_right _ _⟩
  | closes => exact .layout _ hrest rfl (by simp [Progress.found]) hclosed
  | uneven =>
    refine .layout _ hrest rfl ?_ hclosed
    exact List.forall_mem_singleton.2 ⟨rfl, Nat.le_refl _, Nat.le_add_right _ _⟩

theorem textStep_of_readToken (hp : s.pending = []) (hrest : (s.skipWhile isGap).rest = c :: cs)
    {r : Found} (htoken : (s.skipWhile isGap).readToken c cs = (r, t)) (used : Bool) :
    TextStep s [r] { t with lineUsed := used } := by
  obtain ⟨-, -, rest, pos, depth, hmoves⟩ := (s.skipWhile isGap).readToken_found c cs
  obtain ⟨taken, htaken, hmoved, -⟩ := readToken_takes hrest htoken
  rw [htoken] at hmoves
  have hpending : t.pending = [] := (congrArg Scanner.pending hmoves).trans hp
  have hstep := TextStep.token (t := { t with lineUsed := used }) taken hrest
    (hrest.symm.trans htaken) hmoved hpending
  rwa [htoken] at hstep

theorem LineCase.textStep {p : Progress} (h : LineCase (s.skipWhile isGap) p)
    (hp : s.pending = []) : TextStep s p.found.1 p.found.2 := by
  have hgap : s.rest = s.rest.takeWhile isGap ++ (s.skipWhile isGap).rest :=
    List.takeWhile_append_dropWhile.symm
  have hnone : ∀ stop, ∀ x ∈ s.pending, x.token.isSolid = false ∧ s.pos ≤ x.span.start ∧
      x.span.start ≤ stop := by
    simp [hp]
  have hbreak : ∀ cs, (s.skipWhile isGap).rest = '\n' :: cs →
      s.rest = (s.rest.takeWhile isGap ++ ['\n']) ++ cs := by
    intro cs hrest
    rw [List.append_assoc, List.singleton_append, ← hrest]
    exact hgap
  have hpos : (s.skipWhile isGap).pos + Text.byteSize ['\n'] =
      s.pos + Text.byteSize (s.rest.takeWhile isGap ++ ['\n']) := by
    rw [Cut.byteSize_append, ← Nat.add_assoc]
    rfl
  cases h with
  | finishes =>
    refine .layout _ hgap rfl (by simp [Progress.found]) fun x hx => ?_
    obtain ⟨htoken, -, hspan⟩ := layout_of_finish hx
    rw [hspan]
    exact ⟨htoken, Nat.le_add_right _ _, Nat.le_refl _⟩
  | comment =>
    refine .layout (s.rest.takeWhile isGap ++ (s.skipWhile isGap).rest.takeWhile (· ≠ '\n'))
      ?_ ?_ (by simp [Progress.found]) (hnone _)
    · rw [List.append_assoc]
      exact hgap.trans (congrArg _ List.takeWhile_append_dropWhile.symm)
    · rw [Cut.byteSize_append, ← Nat.add_assoc]
      rfl
  | inner hrest | empty hrest =>
    exact .layout _ (hbreak _ hrest) hpos (by simp [Progress.found]) (hnone _)
  | ends hrest _ _ ht =>
    subst ht
    refine .layout _ (hbreak _ hrest) hpos ?_ (hnone _)
    exact List.forall_mem_singleton.2 ⟨rfl, Nat.le_add_right _ _, Nat.le_add_right _ _⟩
  | token hrest _ _ htoken => exact textStep_of_readToken hp hrest htoken true
  | @fault _ _ _ t hrest _ _ htoken => exact textStep_of_readToken hp hrest htoken t.lineUsed

theorem step_textStep (s : Scanner) : TextStep s s.step.found.1 s.step.found.2 := by
  have hcase := s.step_case
  generalize s.step = p at hcase ⊢
  cases hcase with
  | waiting hp => exact .waiting hp
  | ended hp =>
    refine .layout [] rfl rfl ?_ (by simp [Progress.found, hp])
    exact List.forall_mem_singleton.2 ⟨rfl, Nat.le_refl _, Nat.le_refl _⟩
  | margin h hcase => exact hcase.textStep h.pending
  | line h hcase => exact hcase.textStep h.pending

/-- The scanner has passed a beginning of the text, and only layout is pending. -/
structure InText (text : List Char) (s : Scanner) : Prop where
  passed : ∃ before, s.Passed text before
  pending : ∀ x ∈ s.pending, x.token.isSolid = false

theorem inText_ofText (text : String) : (ofText text).InText text.toList where
  passed := ⟨[], passed_ofText text⟩
  pending := by simp [ofText]

/-- It was found where a token of the text begins. -/
def FoundIn (text : List Char) (r : Found) : Prop :=
  ∃ (s : Scanner) (before : List Char) (c : Char) (cs : List Char),
    s.Passed text before ∧ s.rest = c :: cs ∧ r = (s.readToken c cs).1

/-- A step yields layout, or what is read where a token begins. -/
theorem TextStep.inText {rs : List Found} (h : TextStep s rs t) (hs : s.InText text) :
    t.InText text ∧ ∀ r ∈ rs, r.isSolid = false ∨ FoundIn text r := by
  obtain ⟨⟨before, hpassed⟩, hpending⟩ := hs
  cases h with
  | waiting hp =>
    obtain ⟨hx, hlater⟩ := List.forall_mem_cons.1 (hp ▸ hpending)
    exact ⟨⟨⟨before, hpassed.text_eq, hpassed.pos_eq⟩, hlater⟩,
      List.forall_mem_singleton.2 (.inl hx)⟩
  | layout taken hrest hpos hfound hlater =>
    refine ⟨⟨⟨before ++ taken, ?_, ?_⟩, fun x hx => (hlater x hx).1⟩,
      fun r hr => .inl (hfound r hr).1⟩
    · rw [hpassed.text_eq, hrest, List.append_assoc]
    · rw [hpos, hpassed.pos_eq, Cut.byteSize_append]
  | token taken hrest htaken hpos hnone =>
    have hskip := hpassed.skipWhile isGap
    refine ⟨⟨⟨before ++ s.rest.takeWhile isGap ++ taken, ?_, ?_⟩, by simp [hnone]⟩,
      List.forall_mem_singleton.2 (.inr ⟨_, _, _, _, hskip, hrest, rfl⟩)⟩
    · rw [hskip.text_eq, hrest, htaken, ← List.append_assoc]
    · rw [hpos, hskip.pos_eq, ← Cut.byteSize_append]

theorem Emits.foundIn {rs : List Found} (h : Emits s rs t) (hs : s.InText text) :
    ∀ r ∈ rs, r.isSolid = false ∨ FoundIn text r := by
  induction h using Emits.induction with
  | refl s => simp
  | step s rs u _ ih =>
    obtain ⟨ht, hfound⟩ := s.step_textStep.inText hs
    exact List.forall_mem_append.2 ⟨hfound, ih ht⟩

theorem Emits.isStringOf {rs : List Found} (h : Emits s rs t) (hs : s.InText text) :
    ∀ r ∈ rs, r.IsStringOf text := by
  intro r hr
  rcases h.foundIn hs r hr with hlayout | ⟨u, before, c, cs, hpassed, hrest, rfl⟩
  · exact Found.isStringOf_of_layout hlayout
  · exact readToken_isStringOf hpassed hrest

end Scanner

/-- A string is found behind a quote exactly if parts of a string and the closing
quote come next, and it is what the parts stand for; otherwise there is a fault
at the quote.  So all strings of a text are found, faults or not, as they stand
in it, and cross a line only where a backslash stands before the break. -/
theorem strings_end_at_quotes (quote close : Char) (hquote : (quote, close) ∈ quotes)
    (s : Scanner) (cs : List Char) (text : String) :
    (∀ parts rest, EndsString close cs parts rest →
      s.readToken quote cs =
        (.ok ⟨.str (String.ofList (parts.map StringPart.meaning)), ⟨s.pos,
          s.pos + Text.byteSize (quote :: (parts.flatMap StringPart.written ++ [close]))⟩⟩,
        { s with
          rest := rest
          pos := s.pos +
            Text.byteSize (quote :: (parts.flatMap StringPart.written ++ [close])) })) ∧
    ((¬ ∃ parts rest, EndsString close cs parts rest) →
      (s.readToken quote cs).1 =
        .error ⟨.unterminatedString, ⟨s.pos, s.pos + quote.utf8Size⟩⟩) ∧
    ∀ n, ∀ r ∈ ((Scanner.ofText text).calls n).1, Found.IsStringOf text.toList r :=
  ⟨fun _ _ => Scanner.readToken_of_endsString hquote, Scanner.readToken_of_unterminated hquote,
    fun n => (Scanner.emits_calls n _).isStringOf (Scanner.inText_ofText text)⟩

/-- A string of two lines. -/
theorem strings_end_at_quotes_backslash :
    ((Scanner.ofText "\"a\\\nb\"").readToken '"' "a\\\nb\"".toList).1 =
      .ok ⟨.str "a\nb", ⟨0, 6⟩⟩ := by
  rw [(strings_end_at_quotes '"' '"' List.mem_cons_self (Scanner.ofText "\"a\\\nb\"")
    "a\\\nb\"".toList "").1 [.plain 'a', .escaped '\n', .plain 'b'] []
      ⟨by simp [StringPart.Fits], by decide⟩]
  rfl

end Dncl
