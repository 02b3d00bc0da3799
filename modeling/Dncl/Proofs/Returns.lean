/-
Dncl/Proofs/Returns.lean

Carriage returns before line breaks.

`withReturns cs` has a carriage return before every line break of `cs`.  It is
read as `cs` is: a carriage return is a blank within a line, ends a bare line
like a line break, and belongs to a comment before it.

Design.  Each reader commutes with `withReturns`, in the form of
`Reading.withReturns`.  A string is the exception, since a backslash takes the
next character with it: there it must not be a line break.  Two scanners in the
two texts stand at corresponding places (`Par`), but for one case: behind a
comment, or behind blanks, the scanner in the second text has passed the
carriage return already (`ParReturn`).  What is parsed follows from what is read.
-/
import Dncl.Proofs.Placeless

namespace Dncl

/-! ### Texts with carriage returns -/

/-- The text with a carriage return before every line break. -/
def withReturns (cs : List Char) : List Char :=
  cs.flatMap fun c => if c = '\n' then ['\r', '\n'] else [c]

section Texts

variable {c : Char} {cs ds : List Char} {p : Char → Bool}

@[simp] theorem withReturns_nil : withReturns [] = [] := rfl

@[simp] theorem withReturns_break (cs : List Char) :
    withReturns ('\n' :: cs) = '\r' :: '\n' :: withReturns cs := rfl

theorem withReturns_cons (hc : c ≠ '\n') (cs : List Char) :
    withReturns (c :: cs) = c :: withReturns cs := by
  rw [withReturns, List.flatMap_cons, if_neg hc]
  rfl

theorem withReturns_append (cs ds : List Char) :
    withReturns (cs ++ ds) = withReturns cs ++ withReturns ds :=
  List.flatMap_append

theorem withReturns_eq_self (h : '\n' ∉ cs) : withReturns cs = cs := by
  induction cs with
  | nil => rfl
  | cons c cs ih =>
    obtain ⟨hc, hcs⟩ := not_or.1 (mt List.mem_cons.2 h)
    rw [withReturns_cons (Ne.symm hc), ih hcs]

/-- Each line break makes the text longer by one. -/
theorem byteSize_withReturns (cs : List Char) :
    Text.byteSize (withReturns cs) = Text.byteSize cs + cs.count '\n' := by
  induction cs with
  | nil => rfl
  | cons c cs ih =>
    by_cases hc : c = '\n'
    · subst hc
      have hone : Char.utf8Size '\r' = 1 := rfl
      rw [withReturns_break, Text.byteSize_cons, Text.byteSize_cons, Text.byteSize_cons, ih,
        List.count_cons_self, hone]
      omega
    · rw [withReturns_cons hc, Text.byteSize_cons, Text.byteSize_cons, ih,
        List.count_cons_of_ne hc]
      omega

/-- Characters that are neither of the two are taken from both texts alike. -/
theorem takeWhile_withReturns (hbreak : p '\n' = false) (hreturn : p '\r' = false)
    (cs : List Char) : (withReturns cs).takeWhile p = cs.takeWhile p := by
  induction cs with
  | nil => rfl
  | cons c cs ih =>
    by_cases hc : c = '\n'
    · subst hc
      simp [hbreak, hreturn]
    · rw [withReturns_cons hc, List.takeWhile_cons, List.takeWhile_cons, ih]

theorem dropWhile_withReturns (hbreak : p '\n' = false) (hreturn : p '\r' = false)
    (cs : List Char) : (withReturns cs).dropWhile p = withReturns (cs.dropWhile p) := by
  induction cs with
  | nil => rfl
  | cons c cs ih =>
    by_cases hc : c = '\n'
    · subst hc
      simp [hbreak, hreturn]
    · rw [withReturns_cons hc, List.dropWhile_cons, List.dropWhile_cons, ih]
      split
      · rfl
      · rw [withReturns_cons hc]

theorem takeWhile_eq_withReturns (hbreak : p '\n' = false) (cs : List Char) :
    withReturns (cs.takeWhile p) = cs.takeWhile p := by
  refine withReturns_eq_self fun hmem => ?_
  rw [List.mem_takeWhile_imp hmem] at hbreak
  cases hbreak

/-- What is skipped with carriage returns: up to a line break there is one more
character, and otherwise the same is skipped. -/
theorem skip_withReturns (hbreak : p '\n' = false) (hreturn : p '\r' = true) (cs : List Char) :
    (∃ ds, cs.dropWhile p = '\n' :: ds ∧ (withReturns cs).dropWhile p = '\n' :: withReturns ds ∧
      (withReturns cs).takeWhile p = cs.takeWhile p ++ ['\r']) ∨
    (cs.dropWhile p).head? ≠ some '\n' ∧
      (withReturns cs).dropWhile p = withReturns (cs.dropWhile p) ∧
      (withReturns cs).takeWhile p = cs.takeWhile p := by
  induction cs with
  | nil => exact .inr ⟨by simp, rfl, rfl⟩
  | cons c cs ih =>
    by_cases hc : c = '\n'
    · subst hc
      refine .inl ⟨cs, ?_⟩
      rw [withReturns_break, List.dropWhile_cons, List.dropWhile_cons, List.takeWhile_cons,
        List.takeWhile_cons, List.dropWhile_cons, List.takeWhile_cons, hbreak, hreturn]
      exact ⟨rfl, rfl, rfl⟩
    · rw [withReturns_cons hc, List.dropWhile_cons, List.dropWhile_cons, List.takeWhile_cons,
        List.takeWhile_cons]
      cases p c with
      | true =>
        obtain ⟨ds, hdrop, hdrop', htake⟩ | ⟨hhead, hdrop, htake⟩ := ih
        · exact .inl ⟨ds, hdrop, hdrop', congrArg (c :: ·) htake⟩
        · exact .inr ⟨hhead, hdrop, congrArg (c :: ·) htake⟩
      | false => exact .inr ⟨by simpa using hc, (withReturns_cons hc cs).symm, rfl⟩

end Texts

/-! ### Readers -/

/-- The same reading in the text with carriage returns. -/
def Reading.withReturns {α : Type} (r : Reading α) : Reading α :=
  ⟨r.value, Dncl.withReturns r.taken, Dncl.withReturns r.rest⟩

section Readers

variable {c : Char} {cs : List Char}

theorem readDigits_withReturns (cs : List Char) :
    readDigits (withReturns cs) = (readDigits cs).withReturns := by
  have hbreak : isDigit '\n' = false := by decide
  rw [readDigits, readDigits, takeWhile_withReturns hbreak (by decide),
    dropWhile_withReturns hbreak (by decide), Reading.withReturns,
    takeWhile_eq_withReturns hbreak]

theorem readMark_withReturns (hc : c ≠ '\n') (cs : List Char) :
    readMark? c (withReturns cs) = (readMark? c cs).map Reading.withReturns := by
  -- a mark of one character leaves all the text
  have single : ((Symbol.singles.lookup c).map fun s =>
      (⟨s, [c], withReturns cs⟩ : Reading Symbol)) =
      ((Symbol.singles.lookup c).map fun s => (⟨s, [c], cs⟩ : Reading Symbol)).map
        Reading.withReturns := by
    have htaken : withReturns [c] = [c] := withReturns_cons hc []
    rw [Option.map_map]
    simp only [Reading.withReturns, Function.comp_def, htaken]
  cases cs with
  | nil => exact single
  | cons e cs =>
    by_cases he : e = '\n'
    · subst he
      exact single
    · rw [withReturns_cons he] at single ⊢
      rw [readMark?, readMark?]
      split
      · split
        · rw [Option.map_some, Reading.withReturns, withReturns_cons hc, withReturns_cons he]
          rfl
        · exact single
      · exact single

theorem Keyword.no_break (k : Keyword) : '\n' ∉ k.spelling.toList ∧ '\r' ∉ k.spelling.toList := by
  cases k <;> decide

theorem isPrefixOf_withReturns {word : List Char} (hbreak : '\n' ∉ word) (hreturn : '\r' ∉ word)
    (cs : List Char) : word.isPrefixOf (withReturns cs) = word.isPrefixOf cs := by
  induction word generalizing cs with
  | nil => rfl
  | cons d word ih =>
    rw [List.mem_cons, not_or] at hbreak hreturn
    cases cs with
    | nil => rfl
    | cons c cs =>
      by_cases hc : c = '\n'
      · subst hc
        rw [withReturns_break, List.isPrefixOf, List.isPrefixOf, beq_false_of_ne (Ne.symm hbreak.1),
          beq_false_of_ne (Ne.symm hreturn.1)]
        rfl
      · rw [withReturns_cons hc, List.isPrefixOf, List.isPrefixOf, ih hbreak.2 hreturn.2]

theorem startOf?_withReturns (cs : List Char) :
    Keyword.startOf? (withReturns cs) = Keyword.startOf? cs := by
  rw [Keyword.startOf?, Keyword.startOf?]
  refine congrArg (List.find? · Keyword.longestFirst) (funext fun k => ?_)
  exact isPrefixOf_withReturns k.no_break.1 k.no_break.2 cs

theorem readNameTail_withReturns (cs : List Char) :
    readNameTail (withReturns cs) = (readNameTail cs).withReturns := by
  induction cs with
  | nil => rfl
  | cons c cs ih =>
    by_cases hc : c = '\n'
    · subst hc
      have hends : ∀ cs, endsName ('\n' :: cs) = true := fun _ => rfl
      have hends' : ∀ cs, endsName ('\r' :: cs) = true := fun _ => rfl
      rw [withReturns_break, readNameTail, readNameTail, hends, hends']
      rfl
    · have hends : endsName (c :: withReturns cs) = endsName (c :: cs) := by
        rw [endsName, endsName, ← withReturns_cons hc, startOf?_withReturns]
      rw [withReturns_cons hc, readNameTail, readNameTail, hends, ih]
      split <;> simp only [Reading.withReturns, withReturns_cons hc, withReturns_nil]

theorem readWord_withReturns (hc : c ≠ '\n') (cs : List Char) :
    readWord c (withReturns cs) = (readWord c cs).withReturns := by
  rw [readWord, readWord, ← withReturns_cons hc, startOf?_withReturns]
  cases h : Keyword.startOf? (c :: cs) with
  | none =>
    simp only [readNameTail_withReturns, Reading.withReturns, withReturns_cons hc]
  | some k =>
    have hstart : k.spelling.toList.isPrefixOf (c :: cs) = true :=
      List.find?_some (p := fun k : Keyword => k.spelling.toList.isPrefixOf (c :: cs)) h
    obtain ⟨rest, hrest⟩ := List.isPrefixOf_iff_prefix.1 hstart
    have hword := withReturns_eq_self k.no_break.1
    rw [← hrest, withReturns_append, hword]
    simp [Reading.withReturns, hword, ← String.length_toList]

section Strings

variable {close : Char}

/-- A string that is closed crosses a line break only behind a backslash. -/
theorem infix_of_readString (h : (readString close cs).value.isSome = true)
    (hmem : '\n' ∈ (readString close cs).taken) :
    ['\\', '\n'] <:+: (readString close cs).taken := by
  fun_induction readString close cs with
  | case1 => cases h
  | case2 => cases h
  | case3 c cs r ih =>
    simp only [List.mem_cons] at hmem
    obtain hmem | rfl | hmem := hmem
    · cases hmem
    · exact (List.prefix_append ['\\', '\n'] r.taken).isInfix
    · have hrest := ih (Option.isSome_map.symm.trans h) hmem
      exact hrest.trans (List.suffix_append ['\\', c] r.taken).isInfix
  | case4 => cases h
  | case5 cs hnil hcons hbreak =>
    exact absurd (List.mem_singleton.1 hmem).symm hbreak
  | case6 c cs hnil hcons hbreak hclose r ih =>
    obtain rfl | hmem := List.mem_cons.1 hmem
    · exact absurd rfl hbreak
    · exact (ih (Option.isSome_map.symm.trans h) hmem).trans (List.suffix_cons c r.taken).isInfix

/-- A string whose end is missing lacks it in the other text too. -/
theorem readString_withReturns_none (hreturn : close ≠ '\r')
    (h : (readString close cs).value = none) :
    (readString close (withReturns cs)).value = none := by
  -- a carriage return is passed, and the line break behind it ends the reading
  have hbroken : ∀ cs, (readString close ('\r' :: '\n' :: cs)).value = none := by
    intro cs
    rw [readString_cons (by decide), if_neg (by decide), if_neg (Ne.symm hreturn),
      readString_cons (by decide), if_pos rfl]
    rfl
  fun_induction readString close cs with
  | case1 => rfl
  | case2 => rfl
  | case3 c cs r ih =>
    rw [withReturns_cons (by decide)]
    by_cases hc : c = '\n'
    · subst hc
      rw [withReturns_break, readString, readString_cons (by decide), if_pos rfl]
      rfl
    · rw [withReturns_cons hc, readString, ih (Option.map_eq_none_iff.1 h)]
      rfl
  | case4 cs => exact hbroken _
  | case5 => cases h
  | case6 c cs hnil hcons hbreak hclose r ih =>
    have hescape : c ≠ '\\' := ne_escape hnil hcons
    rw [withReturns_cons hbreak, readString_cons hescape, if_neg hbreak, if_neg hclose,
      ih (Option.map_eq_none_iff.1 h)]
    rfl

/-- A string that crosses no line break is read in the same way. -/
theorem readString_withReturns (h : (readString close cs).value.isSome = true)
    (hbreak : '\n' ∉ (readString close cs).taken) :
    readString close (withReturns cs) = (readString close cs).withReturns := by
  fun_induction readString close cs with
  | case1 => cases h
  | case2 => cases h
  | case3 c cs r ih =>
    rw [List.mem_cons, List.mem_cons, not_or, not_or] at hbreak
    obtain ⟨-, hc, hrest⟩ := hbreak
    rw [withReturns_cons (by decide), withReturns_cons (Ne.symm hc), readString,
      ih (Option.isSome_map.symm.trans h) hrest]
    simp only [Reading.withReturns, withReturns_cons (show '\\' ≠ '\n' by decide),
      withReturns_cons (Ne.symm hc)]
    rfl
  | case4 => cases h
  | case5 cs hnil hcons hc =>
    rw [withReturns_cons hc, readString_cons (ne_escape hnil hcons), if_neg hc, if_pos rfl]
    simp only [Reading.withReturns, withReturns_cons hc, withReturns_nil]
  | case6 c cs hnil hcons hc hclose r ih =>
    rw [withReturns_cons hc, readString_cons (ne_escape hnil hcons), if_neg hc, if_neg hclose,
      ih (Option.isSome_map.symm.trans h) fun hmem => hbreak (List.mem_cons_of_mem c hmem)]
    simp only [Reading.withReturns, withReturns_cons hc]
    rfl

end Strings

theorem readCommand_withReturns_none (h : (readCommand cs).value = none) :
    (readCommand (withReturns cs)).value = none := by
  fun_induction readCommand cs with
  | case1 => rfl
  | case2 cs => rfl
  | case3 => cases h
  | case4 c cs hbreak hclose r ih =>
    rw [withReturns_cons hbreak, readCommand, if_neg hbreak, if_neg hclose]
    exact Option.map_eq_none_iff.2 (ih (Option.map_eq_none_iff.1 h))

/-- A command that is closed is read in the same way. -/
theorem readCommand_withReturns (h : (readCommand cs).value.isSome = true) :
    readCommand (withReturns cs) = (readCommand cs).withReturns := by
  fun_induction readCommand cs with
  | case1 => cases h
  | case2 => cases h
  | case3 cs hc =>
    rw [withReturns_cons hc, readCommand, if_neg hc, if_pos rfl]
    simp only [Reading.withReturns, withReturns_cons hc, withReturns_nil]
  | case4 c cs hc hclose r ih =>
    rw [withReturns_cons hc, readCommand, if_neg hc, if_neg hclose,
      ih (Option.isSome_map.symm.trans h)]
    simp only [Reading.withReturns, withReturns_cons hc]
    rfl

end Readers

/-! ### Corresponding places -/

/-- The offset in the text with carriage returns. -/
def returnedOffset (text : List Char) (p : Nat) : Nat :=
  p + Text.breaksBefore text p

/-- The same fault at the corresponding place. -/
def SameFault (text : List Char) (e e' : LexError) : Prop :=
  e'.cause = e.cause ∧
    e'.span = ⟨returnedOffset text e.span.start, returnedOffset text e.span.stop⟩

/-- If the token is a string, there is no backslash directly before a line break
in the literal that it was read from. -/
def Lexeme.IsPlain (text : List Char) (x : Lexeme) : Prop :=
  ∀ literal raw, x.token = .str literal →
    Text.slice? text x.span.start x.span.stop = some raw → ¬['\\', '\n'] <:+: raw

namespace Scanner

variable {text cs : List Char} {c : Char} {s s' t t' : Scanner}

/-- The scanners stand at corresponding places of the two texts. -/
def Par (text : List Char) (s s' : Scanner) : Prop :=
  ∃ before, s.Passed text before ∧ s'.Passed (withReturns text) (withReturns before)

/-- The scanners stand before the same line break, and the second has passed the
carriage return. -/
def ParReturn (text : List Char) (s s' : Scanner) : Prop :=
  ∃ before cs, s.Passed text before ∧ s.rest = '\n' :: cs ∧
    s'.Passed (withReturns text) (withReturns before ++ ['\r'])

namespace Par

/-- What is left is the same, with returns. -/
theorem rest_eq (h : Par text s s') : s'.rest = withReturns s.rest := by
  obtain ⟨before, hs, hs'⟩ := h
  have htext := hs'.text_eq
  rw [hs.text_eq, withReturns_append] at htext
  exact (List.append_cancel_left htext).symm

theorem offset_eq (h : Par text s s') : returnedOffset text s.pos = s'.pos := by
  obtain ⟨before, hs, hs'⟩ := h
  rw [returnedOffset, hs.breaksBefore, hs'.pos_eq, hs.pos_eq, byteSize_withReturns]

theorem after {α : Type} {r : Reading α} (h : Par text s s') (hr : s.rest = r.taken ++ r.rest) :
    Par text (s.after r) (s'.after r.withReturns) := by
  obtain ⟨before, hs, hs'⟩ := h
  refine ⟨before ++ r.taken, hs.after hr, ?_⟩
  rw [withReturns_append]
  refine hs'.after (r := r.withReturns) ?_
  rw [rest_eq ⟨before, hs, hs'⟩, hr, withReturns_append]
  rfl

/-- Spans between corresponding places correspond. -/
theorem sameFault (h : Par text s s') (ht : Par text t t') (cause : LexCause) :
    SameFault text ⟨cause, s.spanTo t⟩ ⟨cause, s'.spanTo t'⟩ := by
  refine ⟨rfl, ?_⟩
  rw [spanTo, spanTo, h.offset_eq, ht.offset_eq]

/-- The first character of a token covers corresponding places. -/
theorem sameFault_head (h : Par text s s') (hs : s.rest = c :: cs) (hc : c ≠ '\n')
    (cause : LexCause) :
    SameFault text ⟨cause, ⟨s.pos, s.pos + c.utf8Size⟩⟩ ⟨cause, ⟨s'.pos, s'.pos + c.utf8Size⟩⟩ := by
  have hread : (⟨(), [c], cs⟩ : Reading Unit).withReturns = ⟨(), [c], withReturns cs⟩ := by
    rw [Reading.withReturns, withReturns_cons hc]
    rfl
  have hafter := h.after (r := ⟨(), [c], cs⟩) hs
  rw [hread] at hafter
  exact h.sameFault hafter cause

end Par

/-! ### Tokens -/

/-- Both scanners found the same: a token, and they stand at corresponding places
then, or a fault. -/
inductive Echoes (text : List Char) :
    Except LexError Lexeme × Scanner → Except LexError Lexeme × Scanner → Prop
  | token {x y : Lexeme} {t t' : Scanner} : y.token = x.token → Par text t t' →
      t'.depth = t.depth → Echoes text (.ok x, t) (.ok y, t')
  | fault {e e' : LexError} {t t' : Scanner} : SameFault text e e' →
      Echoes text (.error e, t) (.error e', t')

/-- A quoted text is read in both, its returns apart. -/
theorem readQuoted_echoes {close : Char} (h : Par text s s') (hs : s.rest = c :: cs)
    (hc : c ≠ '\n') (hclose : close ≠ '\r') (hdepth : s'.depth = s.depth)
    (hplain : (readString close cs).value.isSome = true →
      ¬['\\', '\n'] <:+: c :: (readString close cs).taken) :
    Echoes text (s.readQuoted c close cs) (s'.readQuoted c close (withReturns cs)) := by
  rw [readQuoted, readQuoted]
  cases hvalue : (readString close cs).value with
  | none =>
    rw [readString_withReturns_none hclose hvalue]
    exact .fault (h.sameFault_head hs hc _)
  | some v =>
    have hsome : (readString close cs).value.isSome = true := by rw [hvalue]; rfl
    have hbreak : '\n' ∉ (readString close cs).taken := fun hmem =>
      hplain hsome ((infix_of_readString hsome hmem).trans (List.suffix_cons c _).isInfix)
    have hread := readString_withReturns hsome hbreak
    have htaken : s.rest = (c :: (readString close cs).taken) ++ (readString close cs).rest := by
      rw [List.cons_append, readString_taken, hs]
    have hafter := h.after (r := ⟨(), c :: (readString close cs).taken, (readString close cs).rest⟩)
      htaken
    simp only [Reading.withReturns, withReturns_cons hc] at hafter
    simp only [hread, Reading.withReturns, hvalue]
    exact .token rfl hafter hdepth

theorem readBracketed_echoes (h : Par text s s') (hs : s.rest = c :: cs) (hc : c ≠ '\n')
    (hdepth : s'.depth = s.depth) :
    Echoes text (s.readBracketed c cs) (s'.readBracketed c (withReturns cs)) := by
  rw [readBracketed, readBracketed]
  cases hvalue : (readCommand cs).value with
  | none =>
    rw [readCommand_withReturns_none hvalue]
    exact .fault (h.sameFault_head hs hc _)
  | some v =>
    have hsome : (readCommand cs).value.isSome = true := by rw [hvalue]; rfl
    have hread := readCommand_withReturns hsome
    have htaken : s.rest = (c :: (readCommand cs).taken) ++ (readCommand cs).rest := by
      rw [List.cons_append, readCommand_taken, hs]
    have hafter := h.after (r := ⟨(), c :: (readCommand cs).taken, (readCommand cs).rest⟩) htaken
    simp only [Reading.withReturns, withReturns_cons hc] at hafter
    simp only [hread, Reading.withReturns, hvalue]
    exact .token rfl hafter hdepth

theorem readInteger_echoes (h : Par text s s') (hdepth : s'.depth = s.depth) :
    Echoes text s.readInteger s'.readInteger := by
  have hafter := h.after (r := readDigits s.rest) List.takeWhile_append_dropWhile.symm
  rw [readInteger_eq, readInteger_eq, h.rest_eq, readDigits_withReturns]
  show Echoes text (if ((readDigits s.rest).value : Int) ≤ Text.maxInt then _ else _)
    (if ((readDigits s.rest).value : Int) ≤ Text.maxInt then _ else _)
  split
  · exact .token rfl hafter hdepth
  · exact .fault (h.sameFault hafter _)

/-- The same token is found in both texts, if it is no string that crosses a line
break. -/
theorem readToken_echoes (h : Par text s s') (hs : s.rest = c :: cs) (hc : c ≠ '\n')
    (hdepth : s'.depth = s.depth)
    (hplain : ∀ x t, s.readToken c cs = (.ok x, t) → x.IsPlain text) :
    Echoes text (s.readToken c cs) (s'.readToken c (withReturns cs)) := by
  cases readBy c with
  | quoted close hquote =>
    have hclose : close ≠ '\r' := by
      rintro rfl
      simp [quotes] at hquote
    rw [readToken_quote hquote] at hplain ⊢
    rw [readToken_quote hquote]
    refine readQuoted_echoes h hs hc hclose hdepth fun hsome => ?_
    obtain ⟨v, hv⟩ := Option.isSome_iff_exists.1 hsome
    have htaken : s.rest = (c :: (readString close cs).taken) ++ (readString close cs).rest := by
      rw [List.cons_append, readString_taken, hs]
    obtain ⟨before, hpassed, -⟩ := h
    -- the escaped break is excluded for the text of the token, which is this slice
    refine hplain _ _ (by rw [readQuoted, hv]) _ _ rfl ?_
    show Text.slice? text s.pos (s.pos + Text.byteSize (c :: (readString close cs).taken)) = _
    rw [hpassed.text_eq, hpassed.pos_eq, htaken]
    exact Text.slice?_byteSize _ _ _
  | bracketed hbracket =>
    subst hbracket
    rw [readToken_bracket, readToken_bracket]
    exact readBracketed_echoes h hs hc hdepth
  | digits hdigit =>
    rw [readToken_digit hdigit, readToken_digit hdigit]
    exact readInteger_echoes h hdepth
  | plain hunquoted hdigit =>
    rw [readToken_plain hunquoted hdigit, readToken_plain hunquoted hdigit,
      readMark_withReturns hc]
    cases hmark : readMark? c cs with
    | some r =>
      obtain ⟨before, hpassed, hpassed'⟩ := h.after (hs.trans (readMark_taken hmark).symm)
      refine .token rfl ⟨before, ⟨hpassed.text_eq, hpassed.pos_eq⟩,
        ⟨hpassed'.text_eq, hpassed'.pos_eq⟩⟩ ?_
      exact congrArg (bracketDepth · r.value) hdepth
    | none =>
      simp only [Option.map_none]
      by_cases hname : isNameStart c = true
      · rw [if_pos hname, if_pos hname, readWord_withReturns hc]
        exact .token rfl (h.after (hs.trans (readWord_taken c cs).symm)) hdepth
      · rw [if_neg hname, if_neg hname]
        exact .fault (h.sameFault_head hs hc _)

/-! ### Steps -/

/-- The scanners are on a par in the two texts. -/
structure OnPar (text : List Char) (s s' : Scanner) : Prop where
  place : Par text s s' ∨ s.lineStart = false ∧ ParReturn text s s'
  level : Level s s'
  indents : s'.indents = s.indents

theorem Par.of_eq (h : Par text s s') (hrest : t.rest = s.rest) (hpos : t.pos = s.pos)
    (hrest' : t'.rest = s'.rest) (hpos' : t'.pos = s'.pos) : Par text t t' := by
  obtain ⟨before, hs, hs'⟩ := h
  exact ⟨before, ⟨hrest ▸ hs.text_eq, hpos ▸ hs.pos_eq⟩, ⟨hrest' ▸ hs'.text_eq, hpos' ▸ hs'.pos_eq⟩⟩

theorem ParReturn.of_eq (h : ParReturn text s s') (hrest : t.rest = s.rest) (hpos : t.pos = s.pos)
    (hrest' : t'.rest = s'.rest) (hpos' : t'.pos = s'.pos) : ParReturn text t t' := by
  obtain ⟨before, cs, hs, hbreak, hs'⟩ := h
  exact ⟨before, cs, ⟨hrest ▸ hs.text_eq, hpos ▸ hs.pos_eq⟩, hrest.trans hbreak,
    ⟨hrest' ▸ hs'.text_eq, hpos' ▸ hs'.pos_eq⟩⟩

theorem ParReturn.rest_eq (h : ParReturn text s s') :
    ∃ cs, s.rest = '\n' :: cs ∧ s'.rest = '\n' :: withReturns cs := by
  obtain ⟨before, cs, hs, hrest, hs'⟩ := h
  have htext := hs'.text_eq
  rw [hs.text_eq, withReturns_append, hrest, withReturns_break, List.append_assoc] at htext
  exact ⟨cs, hrest, (List.cons.inj (List.append_cancel_left htext)).2.symm⟩

/-- Behind the line break the places correspond again. -/
theorem ParReturn.passBreak (h : ParReturn text s s') {cs : List Char} (hs : s.rest = '\n' :: cs) :
    Par text (s.after ⟨(), ['\n'], cs⟩) (s'.after ⟨(), ['\n'], withReturns cs⟩) := by
  obtain ⟨ds, hrest, hrest'⟩ := h.rest_eq
  obtain rfl : ds = cs := (List.cons.inj (hrest.symm.trans hs)).2
  obtain ⟨before, -, hpassed, -, hpassed'⟩ := h
  refine ⟨before ++ ['\n'], hpassed.after (r := ⟨(), ['\n'], ds⟩) hs, ?_⟩
  have htaken : withReturns (before ++ ['\n']) = withReturns before ++ ['\r'] ++ ['\n'] := by
    rw [withReturns_append, List.append_assoc]
    rfl
  rw [htaken]
  exact hpassed'.after (r := ⟨(), ['\n'], withReturns ds⟩) hrest'

/-- Skipping characters among which there are carriage returns. -/
theorem Par.skipWhile (h : Par text s s') {p : Char → Bool} (hbreak : p '\n' = false)
    (hreturn : p '\r' = true) :
    Par text (s.skipWhile p) (s'.skipWhile p) ∧ (s.skipWhile p).rest.head? ≠ some '\n' ∨
      ParReturn text (s.skipWhile p) (s'.skipWhile p) := by
  have hrest := h.rest_eq
  obtain ⟨before, hs, hs'⟩ := h
  have hskip := hs'.skipWhile p
  rw [hrest] at hskip
  obtain ⟨ds, hdrop, -, htake⟩ | ⟨hhead, -, htake⟩ := skip_withReturns hbreak hreturn s.rest
  · refine .inr ⟨_, ds, hs.skipWhile p, hdrop, ?_⟩
    rw [withReturns_append, takeWhile_eq_withReturns hbreak, List.append_assoc, ← htake]
    exact hskip
  · refine .inl ⟨⟨_, hs.skipWhile p, ?_⟩, hhead⟩
    rw [withReturns_append, takeWhile_eq_withReturns hbreak, ← htake]
    exact hskip

theorem ParReturn.skipWhile (h : ParReturn text s s') {p : Char → Bool} (hbreak : p '\n' = false) :
    ParReturn text (s.skipWhile p) (s'.skipWhile p) := by
  obtain ⟨cs, hrest, hrest'⟩ := h.rest_eq
  rw [skipWhile_eq_self hrest hbreak, skipWhile_eq_self hrest' hbreak]
  exact h

theorem startsComment_withReturns (c : Char) (cs : List Char) :
    startsComment (c :: withReturns cs) = startsComment (c :: cs) := by
  rw [startsComment_cons, startsComment_cons]
  cases cs with
  | nil => rfl
  | cons d cs =>
    by_cases hd : d = '\n'
    · subst hd
      rfl
    · rw [withReturns_cons hd]
      rfl

/-- A carriage return ends a bare line like a line break. -/
theorem isBare_withReturns (cs : List Char) : isBare (withReturns cs) = isBare cs := by
  cases cs with
  | nil => rfl
  | cons c cs =>
    by_cases hbreak : c = '\n'
    · subst hbreak
      rfl
    rw [withReturns_cons hbreak]
    by_cases hreturn : c = '\r'
    · subst hreturn
      rfl
    rw [isBare_cons hbreak hreturn, isBare_cons hbreak hreturn, startsComment_withReturns]

/-- At the start of a line both margins are measured alike. -/
theorem Par.beginLine (h : Par text s s') (hlevel : Level s s')
    (hindents : s'.indents = s.indents) :
    Progress.Alike (OnPar text) (SameFault text) s.beginLine s'.beginLine := by
  have hbreak : isMargin '\n' = false := rfl
  have hrest := h.rest_eq
  have hwidth : s'.lineWidth = s.lineWidth := by
    rw [lineWidth, lineWidth, hrest, takeWhile_withReturns hbreak rfl]
  have hpast : Par text s.pastMargin s'.pastMargin := by
    obtain ⟨before, hs, hs'⟩ := h
    refine ⟨_, hs.pastMargin, ?_⟩
    rw [withReturns_append, takeWhile_eq_withReturns hbreak]
    have hmargin := hs'.pastMargin
    rwa [hrest, takeWhile_withReturns hbreak rfl] at hmargin
  have hbare : isBare s'.pastMargin.rest = isBare s.pastMargin.rest := by
    rw [hpast.rest_eq, isBare_withReturns]
  rw [Scanner.beginLine, Scanner.beginLine, hbare, hwidth, hindents]
  split
  · exact .again ⟨.inl hpast, ⟨hlevel.depth, rfl, hlevel.lineUsed, hlevel.ended, hlevel.pending⟩,
      hindents⟩
  · split
    · refine .again ⟨.inl (hpast.of_eq rfl rfl rfl rfl),
        ⟨hlevel.depth, rfl, hlevel.lineUsed, hlevel.ended, rfl⟩, ?_⟩
      exact congrArg (s.lineWidth :: ·) hindents
    · have hclose : OnPar text (s.pastMargin.closeBlocks s.lineWidth)
          (s'.pastMargin.closeBlocks s.lineWidth) := by
        refine ⟨.inl (hpast.of_eq rfl rfl rfl rfl),
          ⟨hlevel.depth, rfl, hlevel.lineUsed, hlevel.ended, ?_⟩, ?_⟩
        · simp only [closeBlocks, pastMargin, hindents, List.map_replicate]
        · exact congrArg (marginsUpTo s.lineWidth) hindents
      split
      · exact .again hclose
      · exact .fault (h.sameFault hpast _)

/-- Where both lines break, both scanners pass the line break. -/
theorem ParReturn.readOn (h : ParReturn text s s') (hlevel : Level s s')
    (hindents : s'.indents = s.indents) :
    Progress.Alike (OnPar text) (SameFault text) s.readOn s'.readOn := by
  obtain ⟨cs, hrest, hrest'⟩ := h.rest_eq
  have hpass := h.passBreak hrest
  rw [readOn_break hrest, readOn_break hrest', hlevel.depth, hlevel.lineUsed]
  split
  · exact .again ⟨.inl hpass, ⟨hlevel.depth, hlevel.lineStart, hlevel.lineUsed, hlevel.ended,
      hlevel.pending⟩, hindents⟩
  · split
    · exact .token rfl fun _ => ⟨.inl (hpass.of_eq rfl rfl rfl rfl),
        ⟨hlevel.depth, rfl, rfl, hlevel.ended, hlevel.pending⟩, hindents⟩
    · exact .again ⟨.inl (hpass.of_eq rfl rfl rfl rfl),
        ⟨hlevel.depth, rfl, hlevel.lineUsed, hlevel.ended, hlevel.pending⟩, hindents⟩

/-- Elsewhere both read the same token or comment, or are at the end. -/
theorem Par.readOn (h : Par text s s') (hhead : s.rest.head? ≠ some '\n') (hlevel : Level s s')
    (hstart : s.lineStart = false) (hindents : s'.indents = s.indents)
    (hplain : ∀ x t, s.readOn = .emit (.ok x) t → x.IsPlain text) :
    Progress.Alike (OnPar text) (SameFault text) s.readOn s'.readOn := by
  have hrest' := h.rest_eq
  cases hrest : s.rest with
  | nil =>
    rw [hrest] at hrest'
    rw [Scanner.readOn, Scanner.readOn, hrest, hrest']
    refine .again ⟨.inl (h.of_eq rfl rfl rfl rfl),
      hlevel.finish (congrArg List.length hindents), ?_⟩
    simp only [finish, hindents]
  | cons c cs =>
    have hbreak : c ≠ '\n' := by
      rintro rfl
      exact hhead (by rw [hrest]; rfl)
    rw [hrest, withReturns_cons hbreak] at hrest'
    have hsame := startsComment_withReturns c cs
    cases hcomment : startsComment (c :: cs) with
    | true =>
      rw [readOn_comment hrest hcomment, readOn_comment hrest' (hsame.trans hcomment)]
      -- a comment goes up to the return on one side and to the break on the other
      refine .again ⟨?_, ⟨hlevel.depth, hlevel.lineStart, hlevel.lineUsed, hlevel.ended,
        hlevel.pending⟩, hindents⟩
      exact (h.skipWhile rfl rfl).imp And.left fun hreturn => ⟨hstart, hreturn⟩
    | false =>
      rw [readOn_eq_readToken hrest hcomment hbreak] at hplain ⊢
      rw [readOn_eq_readToken hrest' (hsame.trans hcomment) hbreak]
      obtain ⟨-, -, rest, pos, depth, hmoves⟩ := s.readToken_found c cs
      obtain ⟨-, -, rest', pos', depth', hmoves'⟩ := s'.readToken_found c (withReturns cs)
      have hechoes := readToken_echoes h hrest hbreak hlevel.depth
        fun x t htoken => hplain x _ (by rw [htoken])
      generalize s.readToken c cs = found at hmoves hechoes
      generalize s'.readToken c (withReturns cs) = found' at hmoves' hechoes
      cases hechoes with
      | token htoken hpar hdepth =>
        cases hmoves
        cases hmoves'
        exact .token htoken fun _ => ⟨.inl (hpar.of_eq rfl rfl rfl rfl), ⟨hdepth, hlevel.lineStart,
          rfl, hlevel.ended, hlevel.pending⟩, hindents⟩
      | fault hfault => exact .fault hfault

/-- All strings that the scanner goes on to yield are plain. -/
def YieldsPlain (text : List Char) (s : Scanner) : Prop :=
  ∀ x, .ok x ∈ s.yields → x.IsPlain text

/-- Scanners on a par make the same step. -/
theorem OnPar.step (h : OnPar text s s') (hplain : s.YieldsPlain text) :
    Progress.Alike (OnPar text) (SameFault text) s.step s'.step := by
  refine h.level.step_alike ?_ (fun _ => h) ?_
  · intro x xs y ys hp hp'
    have hpending := h.level.pending
    rw [hp, hp'] at hpending
    refine ⟨?_, ⟨h.level.depth, h.level.lineStart, h.level.lineUsed, h.level.ended,
      (List.cons.inj hpending).2⟩, h.indents⟩
    obtain hpar | ⟨hline, hreturn⟩ := h.place
    · exact .inl (hpar.of_eq rfl rfl rfl rfl)
    · exact .inr ⟨hline, hreturn.of_eq rfl rfl rfl rfl⟩
  · intro hp hp' he he'
    cases hl : s.lineStart with
    | true =>
      -- at the start of a line no return was passed on one side only
      obtain hpar | ⟨hline, -⟩ := h.place
      · rw [step_of_lineStart hp he hl, step_of_lineStart hp' he' (h.level.lineStart.trans hl)]
        exact hpar.beginLine h.level h.indents
      · rw [hl] at hline
        cases hline
    | false =>
      have hstep := Within.step_eq ⟨hp, he, hl⟩
      have hstep' := Within.step_eq ⟨hp', he', h.level.lineStart.trans hl⟩
      have hlevel : Level (s.skipWhile isGap) (s'.skipWhile isGap) :=
        ⟨h.level.depth, h.level.lineStart, h.level.lineUsed, h.level.ended, h.level.pending⟩
      have hskip : Par text (s.skipWhile isGap) (s'.skipWhile isGap) ∧
          (s.skipWhile isGap).rest.head? ≠ some '\n' ∨
          ParReturn text (s.skipWhile isGap) (s'.skipWhile isGap) := by
        obtain hpar | ⟨-, hreturn⟩ := h.place
        · exact hpar.skipWhile rfl rfl
        · exact .inr (hreturn.skipWhile rfl)
      rw [hstep, hstep']
      obtain ⟨hpar, hhead⟩ | hreturn := hskip
      · refine hpar.readOn hhead hlevel hl h.indents fun x t hread => ?_
        -- the token is one that the scanner yields, so it is plain
        have hnext := next_of_emit (hstep.trans hread)
        by_cases hx : x.token = .eof
        · exact hplain x (by rw [yields_of_eof hnext hx]; exact List.mem_singleton_self _)
        · exact hplain x (by rw [yields_of_next hnext hx]; exact List.mem_cons_self)
      · exact hreturn.readOn hlevel h.indents

/-- The scanners stay on a par as long as strings are plain. -/
theorem OnPar.step_plain (h : OnPar text s s') (hplain : s.YieldsPlain text) :
    Progress.Alike (fun t t' => OnPar text t t' ∧ t.YieldsPlain text) (SameFault text)
      s.step s'.step := by
  refine (h.step hplain).imp ?_ ?_
  · intro t t' hstep _ hnext
    rw [YieldsPlain, yields_of_again hstep] at hplain
    exact ⟨hnext, hplain⟩
  · intro x _ t t' hstep _ _ hx hnext
    rw [YieldsPlain, yields_of_next (next_of_emit hstep) hx] at hplain
    exact ⟨hnext, fun y hy => hplain y (List.mem_cons_of_mem _ hy)⟩

theorem onPar_ofText (text : String) :
    OnPar text.toList (ofText text) (ofText (String.ofList (withReturns text.toList))) := by
  refine ⟨.inl ⟨[], passed_ofText text, ?_⟩, ⟨rfl, rfl, rfl, rfl, rfl⟩, rfl⟩
  have hpassed := passed_ofText (String.ofList (withReturns text.toList))
  rwa [String.toList_ofList] at hpassed

end Scanner

/-- With carriage returns, the same is yielded. -/
theorem yields_withReturns (text : String)
    (hplain : (Scanner.ofText text).YieldsPlain text.toList) :
    List.Forall₂ (Item.Alike (SameFault text.toList)) (Scanner.ofText text).yields
      (Scanner.ofText (String.ofList (withReturns text.toList))).yields :=
  Scanner.yields_alike (R := fun t t' => Scanner.OnPar text.toList t t' ∧ t.YieldsPlain text.toList)
    (fun _ _ h => h.1.step_plain h.2) ⟨Scanner.onPar_ofText text, hplain⟩

/-- **Carriage returns change nothing.**  If no string has a backslash directly
before a line break, the text with a carriage return before every line break has
the same tokens, or the same fault at the corresponding place; and it is parsed to
the same program, or to the same failure, but for places. -/
theorem carriage_returns_change_nothing (text : String)
    (hplain : ∀ x, .ok x ∈ (Scanner.ofText text).yields → x.IsPlain text.toList) :
    ReadAlike (SameFault text.toList) (tokenize text)
        (tokenize (String.ofList (withReturns text.toList))) ∧
      erasedOutcome (parseProgram (String.ofList (withReturns text.toList))) =
        erasedOutcome (parseProgram text) := by
  have halike := yields_withReturns text hplain
  refine ⟨Scanner.tokens_alike halike, parseProgram_alike (halike.imp fun x y hxy => ?_)⟩
  cases hxy with
  | token htoken => exact .token htoken
  | fault hfault => exact .fault hfault.1

/-- A comment, an empty line and a fault behind them. -/
theorem carriage_returns_change_nothing_fault :
    tokenize "x = 「い」 # y\n\n&" = .error ⟨.unrecognized '&', ⟨19, 20⟩⟩ ∧
      tokenize "x = 「い」 # y\r\n\r\n&" = .error ⟨.unrecognized '&', ⟨21, 22⟩⟩ ∧
      erasedOutcome (parseProgram "x = 「い」 # y\r\n\r\n&") =
        erasedOutcome (parseProgram "x = 「い」 # y\n\n&") := by
  have hfault : tokenize "x = 「い」 # y\n\n&" = .error ⟨.unrecognized '&', ⟨19, 20⟩⟩ := by
    decide +kernel
  have hyields : (Scanner.ofText "x = 「い」 # y\n\n&").yields =
      [.ok ⟨.ident "x", ⟨0, 1⟩⟩, .ok ⟨.symbol .assign, ⟨2, 3⟩⟩, .ok ⟨.str "い", ⟨4, 13⟩⟩,
        .ok ⟨.newline, ⟨17, 18⟩⟩, .error ⟨.unrecognized '&', ⟨19, 20⟩⟩] := by
    decide +kernel
  have hplain : ∀ x, .ok x ∈ (Scanner.ofText "x = 「い」 # y\n\n&").yields →
      x.IsPlain "x = 「い」 # y\n\n&".toList := by
    intro x hx literal raw htoken hraw
    rw [hyields] at hx
    simp only [List.mem_cons, Except.ok.injEq, List.not_mem_nil, or_false, reduceCtorEq] at hx
    rcases hx with rfl | rfl | rfl | rfl <;> cases htoken
    have hslice : Text.slice? "x = 「い」 # y\n\n&".toList 4 13 = some ['「', 'い', '」'] := by
      decide +kernel
    cases hslice.symm.trans hraw
    decide
  obtain ⟨halike, hparse⟩ := carriage_returns_change_nothing _ hplain
  refine ⟨hfault, ?_, hparse⟩
  rw [hfault] at halike
  generalize hread : tokenize _ = found at halike
  cases halike with
  | @fault _ e' hsame =>
    obtain ⟨cause, span⟩ := e'
    obtain ⟨rfl, rfl⟩ := hsame
    exact hread

end Dncl
