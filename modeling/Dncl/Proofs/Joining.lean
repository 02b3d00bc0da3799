/-
Dncl/Proofs/Joining.lean

Programs in one text, line after line.

If two texts are programs, then so is the first with the second in a new line
behind it: its statements are those of the first and then those of the second,
with their places moved.  There is one exception.  A statement that ends with a
block needs no line break behind it, and the parser keeps a note when a block
has ended; but a block that stands in the line of its heading takes the note
back, also if its own last statement ends with a block.  Behind such a statement
nothing may follow but the end of a block or of the text.

Design.  `Parsed` collects what is known of a text that is parsed: its tokens,
the derivation of its program and the places of its words.  The tokens of both
texts are known from `tokens_sequel`, the derivation from `Reads.follow`, or
that there is none from `Reads.stuck`, and the places from those of the words.
-/
import Dncl.Proofs.Locations
import Dncl.Proofs.Sequel

namespace Dncl

variable {p q : Program}

/-! ### The end of a program -/

/-- Whether the last token of the text closes a block. -/
def endsWithBlock (text : String) : Bool :=
  match tokenize text with
  | .ok ts => decide ((ts.map Lexeme.token).dropLast.getLast? = some .dedent)
  | .error _ => false

/-- Whether the parser has noted, behind the program of the text, that a block has
just ended. -/
def notesBlockEnd (text : String) : Bool :=
  match Window.ofFeed (.text (Scanner.ofText text)) with
  | .error _ => false
  | .ok w =>
    match (Parse.withRules Rules.program).run w with
    | .ok _ w' => w'.closedBlock
    | .error _ _ => false

/-- Whether a statement may follow in a new line: the last token of the text does
not close a block, or the parser has noted that one has ended. -/
def takesMore (text : String) : Bool :=
  !endsWithBlock text || notesBlockEnd text

/-! ### Streams from tokens -/

namespace Scanner

variable {s : Scanner} {ts : List Token}

/-- A fault in the stream is one of the tokens. -/
theorem tokens_of_fault {s' : Stream} {fault : LexError} (h : s.stream = .prepend ts s')
    (hfault : s' 0 = .error fault) (hts : .eof ∉ ts) : ∃ e, s.tokens = .error e := by
  induction ts generalizing s with
  | nil =>
    have hitem : (Feed.text s).item = .error fault := (congrFun h 0).trans hfault
    rw [Feed.item, Feed.pull] at hitem
    cases hnext : s.next with
    | mk result t =>
      rw [hnext] at hitem
      cases result with
      | ok x => cases hitem
      | error e => exact ⟨e, by rw [tokens_eq, hnext]⟩
  | cons u ts ih =>
    obtain ⟨x, t, hnext, hx, hrest⟩ := next_of_stream (congrFun h 0)
    rw [h] at hrest
    obtain ⟨e, he⟩ := ih hrest fun hmem => hts (List.mem_cons_of_mem u hmem)
    have hne : x.token ≠ .eof := hx ▸ fun heq => hts (heq ▸ List.mem_cons_self)
    refine ⟨e, ?_⟩
    rw [tokens_eq, hnext]
    dsimp only
    rw [if_neg hne, he]

/-- The tokens of a scanner, without the end mark, are what is read from it. -/
theorem stream_of_tokens {xs : List Lexeme} (hs : s.IsReading) (h : s.tokens = .ok xs)
    (hxs : xs.map Lexeme.token = ts ++ [.eof]) (hts : .eof ∉ ts) :
    s.stream = .prepend ts .ended := by
  -- the stream is a list of tokens in any case; a fault behind them is the only obstacle
  obtain ⟨us, s', hover, hstream, hlayout⟩ := inOrder hs
  rcases hover with rfl | ⟨fault, hfault⟩
  · obtain ⟨ys, hys, hmap⟩ := tokens_of_stream hstream hlayout.eof_not_mem
    obtain rfl := Except.ok.inj (h.symm.trans hys)
    obtain rfl := List.append_cancel_right (hmap.symm.trans hxs)
    exact hstream
  · obtain ⟨e, he⟩ := tokens_of_fault hstream hfault hlayout.eof_not_mem
    cases h.symm.trans he

end Scanner

/-! ### What is known of a program -/

/-- The text is parsed as `p`, from the tokens `xs`; `c` says whether a block has just
ended. -/
structure Parsed (text : String) (p : Program) (xs : List Lexeme) (ts : List Token) (c : Bool) :
    Prop where
  lexemes : tokenize text = .ok xs
  tokens : xs.map Lexeme.token = ts ++ [.eof]
  eof : .eof ∉ ts
  reads : Reads (.statements [.eof, .dedent]) false ts p.statements c []
  placed : p.place.Gives p (places xs)

/-- All that is known of a text that is a program. -/
theorem exists_parsed {text : String} (h : parseProgram text = .ok p) :
    ∃ xs ts c, Parsed text p xs ts c := by
  obtain ⟨ts, c, hstream, hlayout, hreads⟩ := reads_of_parsed h
  obtain ⟨xs, hxs, hmap⟩ := Scanner.tokens_of_stream hstream hlayout.eof_not_mem
  refine ⟨xs, ts, c, hxs, hmap, hlayout.eof_not_mem, hreads, ?_⟩
  have hplaces := parseFeed_places (Scanner.good_trail_ofText text) (fitsIn_start _)
  rw [← parseProgram, h] at hplaces
  obtain ⟨ys, x, tr, hpass, heof, hx, hxeof, hp⟩ := hplaces
  -- the trail up to the end mark is the list of the tokens
  obtain rfl := Except.ok.inj ((Scanner.tokens_of_passes hpass heof hx hxeof).symm.trans hxs)
  have hlast : places [x] = [] := by simp [places, hxeof, Token.isWord]
  rw [places_append, hlast, List.append_nil]
  exact hp

namespace Parsed

variable {text text' : String} {p p' : Program} {xs xs' : List Lexeme} {ts ts' : List Token}
  {c c' : Bool} (h : Parsed text p xs ts c)

include h

/-- Its tokens, and nothing more, are read from the text. -/
theorem stream : (Scanner.ofText text).stream = .prepend ts .ended :=
  Scanner.stream_of_tokens (Scanner.isReading_ofText text) h.lexemes h.tokens h.eof

theorem notesBlockEnd_eq : notesBlockEnd text = c := by
  obtain ⟨w, q, w', hwindow, hrun, -, hw'⟩ := run_of_reads h.stream h.eof h.reads
  rw [notesBlockEnd, hwindow]
  dsimp only
  rw [hrun]
  exact hw'.flag

theorem endsWithBlock_iff : endsWithBlock text = true ↔ EndsBlock ts := by
  rw [endsWithBlock, h.lexemes]
  dsimp only
  rw [decide_eq_true_iff, h.tokens, List.dropLast_concat]
  rfl

/-- A statement may follow unless a block was ended that is not noted. -/
theorem takesMore_iff : takesMore text = true ↔ (EndsBlock ts → c = true) := by
  rw [takesMore, h.notesBlockEnd_eq, Bool.or_eq_true, Bool.not_eq_true', ← h.endsWithBlock_iff,
    ← Bool.not_eq_true]
  exact imp_iff_not_or.symm

theorem head?_eq : xs.head?.map Lexeme.token = some (inView ts) := by
  rw [← List.head?_map, h.tokens]
  cases ts <;> rfl

/-- A program does not begin with a block. -/
theorem inView_ne_indent : inView ts ≠ .indent := by
  intro hindent
  rcases h.reads.opens (by rw [hindent]; exact nofun) with ⟨rfl, -⟩ | ⟨⟨hsolid, -⟩, -⟩
  · cases hindent
  · exact Token.ne_of_isSolid hsolid rfl hindent

/-- A program goes on with nothing that stands in front of it. -/
theorem goesOn_eq_false (hbreak : inView ts ≠ .newline) : (inView ts).goesOn = false := by
  rcases h.reads.opens hbreak with ⟨rfl, -⟩ | ⟨hopens, -⟩
  · rfl
  · exact hopens.2

/-- All brackets are closed. -/
theorem depthOver_eq : depthOver 0 (xs.map Lexeme.token) = 0 := by
  rw [h.tokens, depthOver_append, h.reads.depthOver_eq 0]
  rfl

/-- The tokens of the first text, found again in both. -/
theorem tokens_join (h' : Parsed text' p' xs' ts' c') (hreturn : '\r' ∉ text'.toList) :
    inView ts' ≠ .newline ∧ Sealed ts ∧
      ∃ ys, ys.map Lexeme.token = ts ∧ places ys = places xs ∧
        tokenize (text ++ "\n" ++ text') =
          .ok (ys ++ xs'.map (Lexeme.moved (Text.byteSize text.toList + 1))) := by
  have hfirst : xs'.head?.map Lexeme.token ≠ some .indent := by
    rw [h'.head?_eq]
    exact fun heq => h'.inView_ne_indent (Option.some.inj heq)
  obtain ⟨hbreak, ys, hagain, htokens⟩ :=
    Scanner.tokens_sequel h.lexemes h'.lexemes h.depthOver_eq hreturn hfirst
  obtain rfl := List.append_cancel_right (h.tokens.symm.trans hagain.tokens)
  rw [h'.head?_eq] at hbreak
  refine ⟨fun heq => hbreak (congrArg some heq), hagain.isSealed, ys, rfl, ?_, htokens⟩
  rw [places, places, hagain.words]

end Parsed

/-! ### Places -/

theorem places_moved (k : Nat) (xs : List Lexeme) :
    places (xs.map (Lexeme.moved k)) = (places xs).map (Span.moved k) := by
  rw [places, places, List.filter_map, List.map_map, List.map_map]
  rfl

/-- Statements get their places one after the other. -/
theorem Stmt.placeAll_append (ss ss' : List Stmt) : Stmt.placeAll (ss ++ ss') = do
    let body ← Stmt.placeAll ss
    let body' ← Stmt.placeAll ss'
    return body ++ body' := by
  induction ss with
  | nil => simp [Stmt.placeAll]
  | cons s ss ih => simp [Stmt.placeAll, ih]

/-- The statements of a program have the places of its words. -/
theorem Program.placeAll_gives {ys : List Span} (h : p.place.Gives p ys) :
    (Stmt.placeAll p.statements).Gives p.statements ys := by
  intro rest
  have hplace : ((Stmt.placeAll p.statements) (ys ++ rest)).bind
      (fun r => some ((⟨r.1, coverAll r.1⟩ : Program), r.2)) = some (p, rest) := h rest
  cases hbody : (Stmt.placeAll p.statements) (ys ++ rest) with
  | none =>
    rw [hbody] at hplace
    cases hplace
  | some r =>
    rw [hbody] at hplace
    cases hplace
    rfl

/-- A program with the statements of two others gets the places of the first, and
those of the second moved. -/
theorem Program.place_join {p' : Program} {ys ys' : List Span} {k : Nat} (h : p.place.Gives p ys)
    (h' : p'.place.Gives p' ys')
    (hq : Stmt.eraseAll q.statements = Stmt.eraseAll (p.statements ++ p'.statements))
    (hplaced : q.place.Gives q (ys ++ ys'.map (Span.moved k))) :
    q.statements = p.statements ++ Stmt.movedAll k p'.statements := by
  have hfirst := Program.placeAll_gives h
  have hsecond := (Stmt.placeAll_moves k p'.statements).gives (Program.placeAll_gives h')
  -- the places of `q` depend on its shape only, and that is the shape of both bodies
  have hall := Program.placeAll_gives hplaced []
  rw [← Stmt.placeAll_erase, hq, Stmt.placeAll_erase, Stmt.placeAll_append, List.append_nil] at hall
  have hboth : (do
      let body ← Stmt.placeAll p.statements
      let body' ← Stmt.placeAll p'.statements
      return body ++ body' : Placing (List Stmt)) (ys ++ ys'.map (Span.moved k)) =
        some (p.statements ++ Stmt.movedAll k p'.statements, []) := by
    show (Stmt.placeAll p.statements (ys ++ _)).bind (fun r =>
      (Stmt.placeAll p'.statements r.2).bind fun r' => some (r.1 ++ r'.1, r'.2)) = _
    rw [hfirst]
    show (Stmt.placeAll p'.statements _).bind _ = _
    rw [hsecond]
    rfl
  exact congrArg Prod.fst (Option.some.inj (hall.symm.trans hboth))

namespace Parsed

variable {text text' : String} {p p' : Program} {xs xs' : List Lexeme} {ts ts' : List Token}
  {c c' : Bool} (h : Parsed text p xs ts c) (h' : Parsed text' p' xs' ts' c')
  (hreturn : '\r' ∉ text'.toList)

include h h' hreturn

/-- The tokens of both texts, without the end marks, are read from both. -/
theorem stream_join :
    (Scanner.ofText (text ++ "\n" ++ text')).stream = .prepend (ts ++ ts') .ended := by
  obtain ⟨-, -, ys, hys, -, hlexemes⟩ := h.tokens_join h' hreturn
  refine Scanner.stream_of_tokens (Scanner.isReading_ofText _) hlexemes ?_ ?_
  · rw [List.map_append, hys, map_token_moved, h'.tokens, List.append_assoc]
  · exact fun hmem => (List.mem_append.1 hmem).elim h.eof h'.eof

/-- What is known of a program in both texts. -/
theorem reads_join (hq : parseProgram (text ++ "\n" ++ text') = .ok q) :
    (∃ d, Reads (.statements [.eof, .dedent]) false (ts ++ ts') q.statements d []) ∧
      q.place.Gives q
        (places xs ++ (places xs').map (Span.moved (Text.byteSize text.toList + 1))) := by
  obtain ⟨-, -, ys, hys, hplaces, hlexemes⟩ := h.tokens_join h' hreturn
  obtain ⟨zs, us, d, hjoined⟩ := exists_parsed hq
  obtain rfl := Except.ok.inj (hlexemes.symm.trans hjoined.lexemes)
  have htokens := hjoined.tokens
  rw [List.map_append, hys, map_token_moved, h'.tokens, ← List.append_assoc] at htokens
  obtain rfl := List.append_cancel_right htokens
  have hplaced := hjoined.placed
  rw [places_append, hplaces, places_moved] at hplaced
  exact ⟨⟨d, hjoined.reads⟩, hplaced⟩

/-- Where a statement may follow, or none does, both programs are read. -/
theorem join_ok (hmore : takesMore text = true ∨ p'.statements = []) :
    ∃ q, parseProgram (text ++ "\n" ++ text') = .ok q ∧
      q.statements = p.statements ++
        Stmt.movedAll (Text.byteSize text.toList + 1) p'.statements := by
  obtain ⟨hbreak, hsealed, -⟩ := h.tokens_join h' hreturn
  have hclosed : EndsBlock ts → ts' = [] ∨ c = true := by
    intro hends
    rcases hmore with hmore | hnone
    · exact .inr (h.takesMore_iff.1 hmore hends)
    · -- a text without statements and without a first line break has no tokens
      rcases h'.reads.opens hbreak with ⟨hnil, -⟩ | ⟨-, hsome⟩
      · exact .inl hnil
      · exact absurd hnone hsome
  obtain ⟨d, hreads⟩ := Reads.follow (h'.goesOn_eq_false hbreak) h'.reads h.reads hsealed hclosed
  obtain ⟨q, hq, herase⟩ := parseFeed_of_reads (h.stream_join h' hreturn)
    (fun hmem => (List.mem_append.1 hmem).elim h.eof h'.eof) hreads
  obtain ⟨-, hplaced⟩ := h.reads_join h' hreturn hq
  exact ⟨q, hq, Program.place_join h.placed h'.placed herase hplaced⟩

/-- Where no statement may follow, both programs are not read. -/
theorem join_error (hmore : takesMore text = false) (hsome : p'.statements ≠ []) :
    ∃ e, parseProgram (text ++ "\n" ++ text') = .error e := by
  obtain ⟨hbreak, hsealed, -⟩ := h.tokens_join h' hreturn
  have hstuck : ¬(EndsBlock ts → c = true) := by
    rw [← h.takesMore_iff, hmore]
    exact Bool.false_ne_true
  obtain ⟨hends, hopen⟩ := Classical.not_imp.1 hstuck
  obtain rfl : c = false := Bool.eq_false_iff.2 hopen
  have hopens : (inView ts').Opens := by
    rcases h'.reads.opens hbreak with ⟨-, hnone⟩ | ⟨hopens, -⟩
    · exact absurd hnone hsome
    · exact hopens
  have hsolid : ∀ t : Token, t.isSolid = false → inView ts' ≠ t := by
    rintro t ht rfl
    exact absurd (ht.symm.trans hopens.1) Bool.false_ne_true
  cases hq : parseProgram (text ++ "\n" ++ text') with
  | error e => exact ⟨e, rfl⟩
  | ok q =>
    obtain ⟨⟨d, hreads⟩, -⟩ := h.reads_join h' hreturn hq
    exact absurd hreads
      (Reads.stuck hopens.2 (hsolid _ rfl) (hsolid _ rfl) h.reads hsealed hends)

end Parsed

/-- **Programs may be written one behind the other.**  If two texts are parsed, and
there is no carriage return in the second, then the first with the second in a new line
behind it is parsed as well, unless the first takes no more statements and there are
some: its statements are those of the first, and those of the second with their places
moved by the length of the first and the line break. -/
theorem parseProgram_joined (text text' : String) (p p' : Program)
    (h : parseProgram text = .ok p) (h' : parseProgram text' = .ok p')
    (hreturn : '\r' ∉ text'.toList) :
    if takesMore text || p'.statements.isEmpty then
      ∃ q, parseProgram (text ++ "\n" ++ text') = .ok q ∧
        q.statements = p.statements ++
          Stmt.movedAll (Text.byteSize text.toList + 1) p'.statements
    else ∃ e, parseProgram (text ++ "\n" ++ text') = .error e := by
  obtain ⟨xs, ts, c, hp⟩ := exists_parsed h
  obtain ⟨xs', ts', c', hp'⟩ := exists_parsed h'
  split
  · rename_i hmore
    rw [Bool.or_eq_true, List.isEmpty_iff] at hmore
    exact hp.join_ok hp' hreturn hmore
  · rename_i hmore
    rw [Bool.or_eq_true, List.isEmpty_iff, not_or] at hmore
    exact hp.join_error hp' hreturn (Bool.eq_false_iff.2 hmore.1) hmore.2

/-- A loop whose block is set in takes more statements.  A loop whose block stands in
the line of its heading, and itself ends with a block, does not. -/
theorem parseProgram_joined_loops :
    (takesMore "a の間:\n    b" = true ∧
      ∃ q, parseProgram ("a の間:\n    b" ++ "\n" ++ "c") = .ok q ∧
        q.statements = [.whileLoop (.ident ⟨"a", ⟨0, 1⟩⟩)
          ⟨[.expr (.ident ⟨"b", ⟨14, 15⟩⟩)], ⟨8, 15⟩⟩ ⟨0, 15⟩, .expr (.ident ⟨"c", ⟨16, 17⟩⟩)]) ∧
    takesMore "a の間: b の間:\n    c" = false ∧
      ∃ e, parseProgram ("a の間: b の間:\n    c" ++ "\n" ++ "c") = .error e := by
  have hname : parseProgram "c" = .ok ⟨[.expr (.ident ⟨"c", ⟨0, 1⟩⟩)], ⟨0, 1⟩⟩ := by decide +kernel
  have hloop : parseProgram "a の間:\n    b" = .ok ⟨[.whileLoop (.ident ⟨"a", ⟨0, 1⟩⟩)
      ⟨[.expr (.ident ⟨"b", ⟨14, 15⟩⟩)], ⟨8, 15⟩⟩ ⟨0, 15⟩], ⟨0, 15⟩⟩ := by decide +kernel
  have hnested : parseProgram "a の間: b の間:\n    c" = .ok ⟨[.whileLoop (.ident ⟨"a", ⟨0, 1⟩⟩)
      ⟨[.whileLoop (.ident ⟨"b", ⟨10, 11⟩⟩)
        ⟨[.expr (.ident ⟨"c", ⟨24, 25⟩⟩)], ⟨18, 25⟩⟩ ⟨10, 25⟩], ⟨8, 25⟩⟩ ⟨0, 25⟩], ⟨0, 25⟩⟩ := by
    decide +kernel
  have hmore : takesMore "a の間:\n    b" = true := by decide +kernel
  have hnone : takesMore "a の間: b の間:\n    c" = false := by decide +kernel
  have hgood := parseProgram_joined _ _ _ _ hloop hname (by decide)
  have hbad := parseProgram_joined _ _ _ _ hnested hname (by decide)
  rw [hmore] at hgood
  rw [hnone] at hbad
  exact ⟨⟨hmore, hgood⟩, hnone, hbad⟩

end Dncl
