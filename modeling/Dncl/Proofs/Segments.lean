/-
Dncl/Proofs/Segments.lean

How a run of letters is cut into words.

Keywords and names share their characters, and nothing need stand between them.
Where a word begins the longest keyword is taken (`CutsKeyword`).  If there is
none, a name is read: no keyword begins anywhere in it, not even one that reaches
past its end, and it goes on as far as it can (`CutsName`):

    text  =  … ++ name ++ after,     after = [] ∨ no letter next ∨ a keyword next.

So a name is read as the same name when it stands alone.

Design.  The two conditions are about the word and the text behind it.  The
table of keywords is met in three facts about it: it has every keyword, longer
ones come first, and no keyword begins with an ASCII character, so the reader may
look for keywords at other characters only.  What is found where a token begins
(`Scanner.FoundIn`) is then cut as the conditions say.
-/
import Dncl.Proofs.Inlaid

namespace Dncl

/-! ### The table of keywords -/

namespace Keyword

variable {k k' : Keyword} {c : Char} {cs : List Char}

theorem mem_longestFirst (k : Keyword) : k ∈ longestFirst := by
  cases k <;> decide

theorem pairwise_longestFirst :
    longestFirst.Pairwise fun k k' => k'.spelling.length ≤ k.spelling.length := by
  decide

theorem head_spelling (k : Keyword) : ∃ c cs, k.spelling.toList = c :: cs ∧ 127 < c.toNat := by
  cases k <;> exact ⟨_, _, rfl, by decide⟩

theorem startOf?_eq_none_iff :
    startOf? cs = none ↔ ∀ k : Keyword, ¬ k.spelling.toList <+: cs := by
  rw [startOf?, List.find?_eq_none]
  constructor
  · intro h k hk
    exact h k k.mem_longestFirst (List.isPrefixOf_iff_prefix.2 hk)
  · intro h k _ hk
    exact h k (List.isPrefixOf_iff_prefix.1 hk)

theorem prefix_of_startOf? (h : startOf? cs = some k) : k.spelling.toList <+: cs := by
  rw [startOf?] at h
  simpa using List.find?_some h

/-- The keyword that is found is the longest one. -/
theorem length_le_of_startOf? (h : startOf? cs = some k) (hk' : k'.spelling.toList <+: cs) :
    k'.spelling.length ≤ k.spelling.length := by
  obtain ⟨-, longer, shorter, htable, hlonger⟩ := List.find?_eq_some_iff_append.1 h
  have hmem : k' ∈ longer ++ k :: shorter := htable ▸ k'.mem_longestFirst
  have hpairwise : (k :: shorter).Pairwise fun k k' : Keyword =>
      k'.spelling.length ≤ k.spelling.length :=
    (List.pairwise_append.1 (htable ▸ pairwise_longestFirst)).2.1
  rcases List.mem_append.1 hmem with hbefore | hlater
  · -- the keywords before it in the table do not stand here
    have hnot := hlonger k' hbefore
    rw [List.isPrefixOf_iff_prefix.2 hk'] at hnot
    cases hnot
  · rcases List.mem_cons.1 hlater with rfl | hlater
    · exact Nat.le_refl _
    · exact List.rel_of_pairwise_cons hpairwise hlater

end Keyword

/-! ### Cutting words -/

/-- At the start of `rest` the keyword `k` is cut off: it stands there, and no
longer keyword does. -/
structure CutsKeyword (k : Keyword) (rest : List Char) : Prop where
  stands : k.spelling.toList <+: rest
  longest : ∀ k' : Keyword, k'.spelling.toList <+: rest → k'.spelling.length ≤ k.spelling.length

/-- At the start of `name ++ after` the name is cut off: no keyword begins in it,
and it ends where it must. -/
structure CutsName (name after : List Char) : Prop where
  nonempty : name ≠ []
  uncut : ∀ i < name.length, ∀ k : Keyword, ¬ k.spelling.toList <+: (name ++ after).drop i
  ends : after = [] ∨ (∃ c ∈ after.head?, isNameChar c = false) ∨
    ∃ k : Keyword, k.spelling.toList <+: after

section Cutting

variable {c : Char} {cs : List Char}

/-- A name that goes on is at no keyword, although only characters that are not
ASCII are examined. -/
theorem startOf?_of_goes (h : endsName (c :: cs) = false) : Keyword.startOf? (c :: cs) = none := by
  rw [Keyword.startOf?_eq_none_iff]
  intro k hk
  obtain ⟨d, ds, hspelling, hhigh⟩ := k.head_spelling
  rw [hspelling] at hk
  obtain rfl : d = c := (List.cons_prefix_cons.1 hk).1
  rw [endsName, Bool.or_eq_false_iff, Bool.and_eq_false_iff] at h
  rcases h.2 with hlow | hnone
  · simp [hhigh] at hlow
  · rw [Option.isSome_eq_false_iff, Option.isNone_iff_eq_none,
      Keyword.startOf?_eq_none_iff] at hnone
    exact hnone k (hspelling ▸ hk)

theorem ends_of_endsName (h : endsName cs = true) : cs = [] ∨
    (∃ c ∈ cs.head?, isNameChar c = false) ∨ ∃ k : Keyword, k.spelling.toList <+: cs := by
  cases cs with
  | nil => exact .inl rfl
  | cons c cs =>
    rw [endsName, Bool.or_eq_true, Bool.and_eq_true] at h
    rcases h with hchar | ⟨-, hkeyword⟩
    · exact .inr (.inl ⟨c, rfl, by simpa using hchar⟩)
    · obtain ⟨k, hk⟩ := Option.isSome_iff_exists.1 hkeyword
      exact .inr (.inr ⟨k, Keyword.prefix_of_startOf? hk⟩)

/-- The rest of a name that has begun: its characters, none of which begins a
keyword, up to where a name ends. -/
theorem readNameTail_cuts (cs : List Char) :
    ∃ tail after, readNameTail cs = ⟨tail, tail, after⟩ ∧ cs = tail ++ after ∧
      (∀ i < tail.length, Keyword.startOf? (cs.drop i) = none) ∧ endsName after = true := by
  induction cs with
  | nil => exact ⟨[], [], rfl, rfl, nofun, rfl⟩
  | cons c cs ih =>
    rw [readNameTail]
    split
    · rename_i hends
      exact ⟨[], c :: cs, rfl, rfl, nofun, hends⟩
    · rename_i hgoes
      obtain ⟨tail, after, hread, hcs, huncut, hends⟩ := ih
      refine ⟨c :: tail, after, by rw [hread], by rw [hcs]; rfl, ?_, hends⟩
      intro i hi
      cases i with
      | zero => exact startOf?_of_goes (Bool.eq_false_iff.2 hgoes)
      | succ i => exact huncut i (Nat.lt_of_succ_lt_succ hi)

/-- A word is a keyword, the longest one, or a name that is cut where it must be. -/
theorem readWord_cuts (c : Char) (cs : List Char) :
    (∃ k after, readWord c cs = ⟨.keyword k, k.spelling.toList, after⟩ ∧
      c :: cs = k.spelling.toList ++ after ∧ CutsKeyword k (c :: cs)) ∨
    ∃ name after, readWord c cs = ⟨.ident (String.ofList name), name, after⟩ ∧
      c :: cs = name ++ after ∧ CutsName name after := by
  rw [readWord]
  split
  · rename_i k hk
    have hstands := Keyword.prefix_of_startOf? hk
    obtain ⟨after, hafter⟩ := id hstands
    refine .inl ⟨k, after, ?_, hafter.symm, hstands, fun k' => Keyword.length_le_of_startOf? hk⟩
    simp [← hafter, ← String.length_toList]
  · rename_i hnone
    obtain ⟨tail, after, hread, hcs, huncut, hends⟩ := readNameTail_cuts cs
    have hword : c :: cs = c :: tail ++ after := congrArg (c :: ·) hcs
    refine .inr ⟨c :: tail, after, by rw [hread], hword, List.cons_ne_nil _ _, ?_,
      ends_of_endsName hends⟩
    intro i hi
    rw [← Keyword.startOf?_eq_none_iff, ← hword]
    cases i with
    | zero => exact hnone
    | succ i => exact huncut i (Nat.lt_of_succ_lt_succ hi)

end Cutting

/-! ### Words in a text -/

/-- Whether the token is a keyword or a name. -/
def Token.isLettered : Token → Bool
  | .ident _ | .keyword _ => true
  | _ => false

theorem Token.isSolid_of_isLettered {t : Token} (h : t.isLettered = true) : t.isSolid = true := by
  cases t with
  | ident | keyword => rfl
  | _ => cases h

namespace Scanner

variable {s : Scanner} {text before : List Char} {c : Char} {cs : List Char} {x : Lexeme}

/-- Keywords and names are read as words. -/
theorem readToken_lettered (h : (s.readToken c cs).1 = .ok x) (hx : x.token.isLettered = true) :
    x = ⟨(readWord c cs).value, s.spanTo (s.after (readWord c cs))⟩ := by
  have hcase := s.readToken_case c cs
  generalize s.readToken c cs = found at h hcase
  cases hcase with
  | openString | openCommand | largeInteger | stray => cases h
  | string | command | integer | mark =>
    cases h
    cases hx
  | word _ _ _ ht =>
    cases h
    rw [ht]

end Scanner

/-- The characters `word` stand in the text at the span, and `after` behind them. -/
structure StandsIn (text : List Char) (span : Span) (word after : List Char) : Prop where
  slice : Text.slice? text span.start span.stop = some word
  rest : Text.dropBytes? span.start text = some (word ++ after)

/-- The words that are found in a text stand in it, cut as they must be. -/
theorem Scanner.FoundIn.cuts {text : List Char} {x : Lexeme} (h : FoundIn text (.ok x))
    (hx : x.token.isLettered = true) :
    (∃ k after, x.token = .keyword k ∧ StandsIn text x.span k.spelling.toList after ∧
      CutsKeyword k (k.spelling.toList ++ after)) ∨
    ∃ name after, x.token = .ident (String.ofList name) ∧ StandsIn text x.span name after ∧
      CutsName name after := by
  obtain ⟨s, before, c, cs, hpassed, hrest, hread⟩ := h
  have hword := readToken_lettered hread.symm hx
  -- whatever word is read, it stands where the scanner stood
  have hstands : ∀ token word after, readWord c cs = ⟨token, word, after⟩ →
      c :: cs = word ++ after → StandsIn text (s.spanTo (s.after (readWord c cs))) word after := by
    intro token word after hreads hcut
    have htext : text = before ++ (word ++ after) := by rw [hpassed.text_eq, hrest, hcut]
    have hspan : s.spanTo (s.after (readWord c cs)) =
        ⟨Text.byteSize before, Text.byteSize before + Text.byteSize word⟩ := by
      rw [hreads, spanTo, ← hpassed.pos_eq]
      rfl
    rw [hspan, htext]
    exact ⟨Text.slice?_byteSize before word after, Text.dropBytes?_byteSize before _⟩
  rw [hword]
  rcases readWord_cuts c cs with
    ⟨k, after, hreads, hcut, hcuts⟩ | ⟨name, after, hreads, hcut, hcuts⟩
  · exact .inl ⟨k, after, by rw [hreads], hstands _ _ _ hreads hcut, hcut ▸ hcuts⟩
  · exact .inr ⟨name, after, by rw [hreads], hstands _ _ _ hreads hcut, hcuts⟩

/-! ### Names alone -/

open Scanner

/-- At the end of a line with a token, which is the end of the text, only layout is
left. -/
theorem tokens_lineEnd (size : Nat) :
    ((Place.inLine [] 0 [0] true).scanner size).tokens =
      .ok [⟨.newline, ⟨size, size⟩⟩, ⟨.eof, ⟨size, size⟩⟩] := by
  let s := ((Place.inLine [] 0 [0] true).scanner size).finish
  have hend : ((Place.inLine [] 0 [0] true).scanner size).step = .again s := rfl
  have hbreak : s.step = .emit (.ok ⟨.newline, ⟨size, size⟩⟩) { s with pending := [] } := rfl
  have heof : { s with pending := [] }.step =
      .emit (.ok ⟨.eof, ⟨size, size⟩⟩) { s with pending := [] } := rfl
  rw [tokens_of_again hend]
  exact tokens_of_next (next_of_emit hbreak) nofun (tokens_of_eof (next_of_emit heof) rfl)

/-- A name that stands alone is read as that name. -/
theorem tokenize_name {name : String} (h : IsName name.toList) :
    tokenize name = .ok [⟨.ident name, ⟨0, Text.byteSize name.toList⟩⟩,
      ⟨.newline, ⟨Text.byteSize name.toList, Text.byteSize name.toList⟩⟩,
      ⟨.eof, ⟨Text.byteSize name.toList, Text.byteSize name.toList⟩⟩] := by
  obtain ⟨cs, rfl⟩ : ∃ cs, name = String.ofList cs := ⟨name.toList, String.ofList_toList.symm⟩
  rw [String.toList_ofList] at h ⊢
  cases cs with
  | nil => exact h.elim
  | cons c cs =>
    obtain ⟨hstart, hdigit, hmark, -⟩ := id h
    have hopens : OpensToken (c :: cs) := opensToken_cons (not_mem_fillers_of_isNameStart hstart)
    have hword : readWord c cs = ⟨.ident (String.ofList (c :: cs)), c :: cs, []⟩ := by
      have hread := readWord_name h delimited_nil
      rwa [List.append_nil] at hread
    have hname : ((Place.inLine (c :: cs) 0 [0] false).scanner 0).step =
        .emit (.ok ⟨.ident (String.ofList (c :: cs)), ⟨0, 0 + Text.byteSize (c :: cs)⟩⟩)
          ((Place.inLine [] 0 [0] true).scanner (0 + Text.byteSize (c :: cs))) := by
      rw [step_of_opensToken rfl rfl rfl rfl hopens, readToken_word hstart hdigit hmark, hword]
      rfl
    have hfirst : (ofText (String.ofList (c :: cs))).step =
        .again ((Place.inLine (c :: cs) 0 [0] false).scanner 0) := by
      rw [step_ofText (String.toList_ofList.symm ▸ hopens), String.toList_ofList]
    rw [Nat.zero_add] at hname
    rw [tokenize, tokens_of_again hfirst]
    exact tokens_of_next (next_of_emit hname) (by simp) (tokens_lineEnd _)

/-! ### Main result -/

/-- **Words are cut as long as they can be.**  Let a keyword or a name be among what
the scanner of a text yields, faults or not.

* Its text is what stands in the text at its span.
* If it is a keyword, no longer keyword stands where it starts.
* If it is a name, it is not empty, and no keyword begins at any of its characters,
  not even one that goes on behind it; and the text ends behind it, or a character
  follows that no name goes on with, or a keyword begins.  When it stands alone, it
  is read as the same name. -/
theorem words_cut_maximally (text : String) (n : Nat) (x : Lexeme)
    (h : .ok x ∈ ((ofText text).calls n).1) :
    (∀ k, x.token = .keyword k →
      ∃ after, StandsIn text.toList x.span k.spelling.toList after ∧
        CutsKeyword k (k.spelling.toList ++ after)) ∧
    ∀ name, x.token = .ident name →
      (∃ after, StandsIn text.toList x.span name.toList after ∧ CutsName name.toList after) ∧
      tokenize name = .ok [⟨.ident name, ⟨0, Text.byteSize name.toList⟩⟩,
        ⟨.newline, ⟨Text.byteSize name.toList, Text.byteSize name.toList⟩⟩,
        ⟨.eof, ⟨Text.byteSize name.toList, Text.byteSize name.toList⟩⟩] := by
  have hfound : x.token.isLettered = true → FoundIn text.toList (.ok x) := by
    intro hx
    -- marks of the layout have no letters
    refine ((emits_calls n _).foundIn (inText_ofText text) _ h).resolve_left ?_
    rw [Found.isSolid, Token.isSolid_of_isLettered hx]
    exact Bool.false_ne_true.symm
  refine ⟨fun k hk => ?_, fun name hname => ?_⟩
  · have hx : x.token.isLettered = true := hk ▸ rfl
    rcases (hfound hx).cuts hx with ⟨k', after, hk', hstands, hcuts⟩ | ⟨_, _, hname, _⟩
    · cases hk.symm.trans hk'
      exact ⟨after, hstands, hcuts⟩
    · cases hk.symm.trans hname
  · have hx : x.token.isLettered = true := hname ▸ rfl
    refine ⟨?_, ?_⟩
    · rcases (hfound hx).cuts hx with ⟨_, _, hk, _⟩ | ⟨cs, after, hcs, hstands, hcuts⟩
      · cases hname.symm.trans hk
      · obtain rfl : name = String.ofList cs := Token.ident.inj (hname.symm.trans hcs)
        rw [String.toList_ofList]
        exact ⟨after, hstands, hcuts⟩
    · obtain ⟨s, before, c, cs, -, -, hread⟩ := hfound hx
      obtain ⟨-, hwritten, -⟩ := readToken_eq_ok (s := s) (Prod.ext hread.symm rfl)
      rw [hname] at hwritten
      exact tokenize_name hwritten

/-- A name of one character before the longer of two keywords. -/
theorem words_cut_maximally_giveBack :
    ((ofText "和を返す").calls 2).1 =
      [.ok ⟨.ident "和", ⟨0, 3⟩⟩, .ok ⟨.keyword .giveBack, ⟨3, 12⟩⟩] ∧
    (∃ after, StandsIn "和を返す".toList ⟨0, 3⟩ "和".toList after ∧ CutsName "和".toList after) ∧
    ∃ after, StandsIn "和を返す".toList ⟨3, 12⟩ "を返す".toList after ∧
      CutsKeyword .giveBack ("を返す".toList ++ after) := by
  have hcalls : ((ofText "和を返す").calls 2).1 =
      [.ok ⟨.ident "和", ⟨0, 3⟩⟩, .ok ⟨.keyword .giveBack, ⟨3, 12⟩⟩] := by
    decide +kernel
  have hname := words_cut_maximally "和を返す" 2 ⟨.ident "和", ⟨0, 3⟩⟩ (by simp [hcalls])
  have hkeyword := words_cut_maximally "和を返す" 2 ⟨.keyword .giveBack, ⟨3, 12⟩⟩ (by simp [hcalls])
  exact ⟨hcalls, (hname.2 "和" rfl).1, hkeyword.1 .giveBack rfl⟩

end Dncl
