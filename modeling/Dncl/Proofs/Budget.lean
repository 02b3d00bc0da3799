/-
Dncl/Proofs/Budget.lean

Scanning ends, with a number of tokens that is linear in the text.

A call of `Scanner.next` makes steps that yield nothing (`Scanner.Idles`), not
more than three for each character that is left and two besides, and then one
that yields.  Some of these steps take no character: they pass the start of a
line, or find the end of the text.

Tokens are paid for in advance.  A character pays for two tokens, since a word
may be followed by the end of its line, and a margin may be followed by the end
of the block that it opens:

    budget  =  2 · characters left  +  tokens pending  +  open margins
                 +  1 in a line that has a token.

No step yields more than it takes from the budget (`budget_step`), so neither
does any run of steps (`Emits.budget_le`).  The end mark costs nothing: once it
has been yielded, every further call yields it again.

The numbers that a scanner keeps grow with the bytes that it has passed, a margin
by at most four for a byte (`Narrow`), so they fit into 32 bits in every text of
fewer than `2 ^ 30` bytes (`Emits.fits`).
-/
import Mathlib.Algebra.Ring.Nat
import Dncl.Proofs.Blocks
import Dncl.Proofs.Tiling

namespace Dncl

variable {size : Nat} {p : Progress}

theorem length_le_byteSize (cs : List Char) : cs.length ≤ Text.byteSize cs := by
  induction cs with
  | nil => exact Nat.le_refl 0
  | cons c cs ih =>
    have hpos := c.utf8Size_pos
    show cs.length + 1 ≤ c.utf8Size + Text.byteSize cs
    omega

namespace Scanner

variable {s t u : Scanner} {x : Lexeme} {rs : List Found}

/-! ### Steps that yield nothing -/

/-- `n` steps that lead from `s` to `t` and yield nothing. -/
inductive Idles : Nat → Scanner → Scanner → Prop
  | refl (s : Scanner) : Idles 0 s s
  | again {n : Nat} {s t u : Scanner} : s.step = .again t → Idles n t u → Idles (n + 1) s u

/-- A call makes as many steps that yield nothing as there is effort left, at
most, and then one that yields. -/
theorem exists_idles (s : Scanner) :
    ∃ n t, n ≤ s.effort ∧ Idles n s t ∧ t.step = .emit s.next.1 s.next.2 := by
  fun_induction next s with
  | case1 s r t hstep => exact ⟨0, s, Nat.zero_le _, .refl s, hstep⟩
  | case2 s t hstep ih =>
    obtain ⟨n, u, hn, hidles, hlast⟩ := ih
    have heffort := effort_lt_of_step hstep
    exact ⟨n + 1, u, by omega, .again hstep hidles, hlast⟩

theorem effort_le (s : Scanner) : s.effort ≤ 3 * s.rest.length + 2 := by
  have hstart := Bool.toNat_le s.lineStart
  have hended := Bool.toNat_le (!s.ended)
  rw [effort]
  omega

/-! ### Tokens are paid for -/

/-- The tokens that can still be paid for, the end mark apart. -/
def budget (s : Scanner) : Nat :=
  2 * s.rest.length + s.pending.length + s.indents.length + s.lineUsed.toNat

/-- Whether what was found has to be paid for.  The end mark and faults are
free. -/
def isPaid : Found → Bool
  | .ok x => x.token != .eof
  | .error _ => false

/-- How many tokens have to be paid for. -/
def cost (rs : List Found) : Nat :=
  rs.countP isPaid

@[simp] theorem cost_nil : cost [] = 0 := rfl

@[simp] theorem cost_fault (fault : LexError) : cost [.error fault] = 0 := rfl

@[simp] theorem cost_eof (span : Span) : cost [.ok ⟨.eof, span⟩] = 0 := rfl

theorem cost_append (rs rs' : List Found) : cost (rs ++ rs') = cost rs + cost rs' :=
  List.countP_append

theorem cost_le_length (rs : List Found) : cost rs ≤ rs.length :=
  List.countP_le_length

theorem cost_tokens {xs : List Lexeme} (h : ∀ x ∈ xs, x.token ≠ .eof) :
    cost (xs.map .ok) = xs.length := by
  rw [cost, List.countP_map, List.countP_eq_length.2]
  intro x hx
  exact bne_iff_ne.2 (h x hx)

/-- What was found is paid for out of the budget. -/
def Pays (s : Scanner) (found : List Found × Scanner) : Prop :=
  cost found.1 + found.2.budget ≤ s.budget

/-- A margin that opens a block has a character, which pays for the start of the
block and for its end; the blocks that a margin closes are paid for. -/
theorem MarginCase.pays (h : MarginCase s p) (hp : s.pending = []) : s.Pays p.found := by
  have hsplit : (s.rest.takeWhile isMargin ++ s.rest.dropWhile isMargin).length = s.rest.length :=
    congrArg List.length List.takeWhile_append_dropWhile
  have hmargins : (marginsUpTo s.lineWidth s.indents).length ≤ s.indents.length :=
    (List.dropWhile_sublist _).length_le
  rw [List.length_append] at hsplit
  cases h with
  | bare =>
    simp only [Progress.found, Pays, cost_nil, budget, pastMargin]
    omega
  | opens hbare hwider =>
    have hpos : 0 < (s.rest.takeWhile isMargin).length := by
      apply List.length_pos_of_ne_nil
      intro hnil
      rw [lineWidth, hnil] at hwider
      exact Nat.not_lt_zero _ hwider
    simp only [Progress.found, Pays, cost_nil, budget, openBlock, pastMargin, hp,
      List.length_cons, List.length_nil]
    omega
  | closes | uneven =>
    simp only [Progress.found, Pays, cost_nil, cost_fault, budget, closeBlocks, pastMargin, hp,
      List.length_replicate, List.length_nil]
    omega

/-- At the end of the text what is pending is paid for: the end of a line that has
a token, and the ends of the open blocks. -/
theorem finish_pays (hp : s.pending = []) : s.Pays ([], s.finish) := by
  have hline : (if s.lineUsed then [(⟨.newline, ⟨s.pos, s.pos⟩⟩ : Lexeme)] else []).length =
      s.lineUsed.toNat := by
    cases s.lineUsed <;> rfl
  simp only [Pays, cost_nil, budget, finish, hp, List.length_append, List.length_replicate,
    List.length_drop, List.length_nil, hline, Bool.toNat_false]
  omega

/-- What a token or a fault within a line leaves of the text. -/
theorem length_rest_readToken {c : Char} {cs : List Char} (hs : s.rest = c :: cs) :
    (s.readToken c cs).2.rest.length ≤ s.rest.length := by
  obtain ⟨taken, hrest, -⟩ := readToken_takes hs rfl
  rw [hrest, List.length_append]
  exact Nat.le_add_left _ _

/-- A character of a token pays for the token, and for the end of its line. -/
theorem LineCase.pays (h : LineCase s p) (hp : s.pending = []) : s.Pays p.found := by
  cases h with
  | finishes => exact finish_pays hp
  | comment =>
    -- a comment costs nothing, and leaves no more than there was
    have hskip := s.length_rest_skipWhile (· ≠ '\n')
    simp only [Progress.found, Pays, cost_nil, budget]
    simp only [skipWhile, after] at hskip ⊢
    omega
  | inner hs | empty hs =>
    simp only [Progress.found, Pays, cost_nil, budget, after, hs, List.length_cons]
    omega
  | @ends _ t hs _ hused ht =>
    have hcost : cost [.ok ⟨.newline, s.spanTo t⟩] ≤ 1 := cost_le_length _
    subst ht
    simp only [Progress.found, Pays, budget, after, hs, hused, List.length_cons, Bool.toNat_true,
      Bool.toNat_false] at hcost ⊢
    omega
  | @token _ _ x t hs _ _ htoken =>
    obtain ⟨hrest, hpending, hindents⟩ := readToken_ok hs htoken
    have hcost : cost [.ok x] ≤ 1 := cost_le_length _
    simp only [Progress.found, Pays, budget, hpending, hindents, hs, List.length_cons,
      Bool.toNat_true]
    omega
  | @fault c cs _ t hs _ _ htoken =>
    obtain ⟨-, -, rest, pos, depth, hmoves⟩ := s.readToken_found c cs
    have hrest := length_rest_readToken hs
    rw [htoken] at hrest hmoves
    subst hmoves
    simp only [Progress.found, Pays, cost_fault, budget]
    simp only at hrest ⊢
    omega

/-- **Every step is paid for.** -/
theorem budget_step (s : Scanner) : s.Pays s.step.found := by
  have hcase := s.step_case
  generalize s.step = p at hcase ⊢
  cases hcase with
  | @waiting x later hp =>
    have hcost : cost [.ok x] ≤ 1 := cost_le_length _
    simp only [Progress.found, Pays, budget, hp, List.length_cons]
    omega
  | ended =>
    simp only [Progress.found, Pays, cost_eof]
    omega
  | margin h hcase => exact hcase.pays h.pending
  | line h hcase =>
    have hpays := hcase.pays h.pending
    have hskip := s.length_rest_skipWhile isGap
    simp only [Pays, budget] at hpays ⊢
    simp only [skipWhile, after] at hpays hskip ⊢
    omega

/-- **Every run of steps is paid for.** -/
theorem Emits.budget_le (h : Emits s rs t) : cost rs + t.budget ≤ s.budget := by
  induction h using Emits.induction with
  | refl s => exact Nat.le_of_eq (Nat.zero_add _)
  | step s rs u _ ih =>
    have hpays : cost s.step.found.1 + s.step.found.2.budget ≤ s.budget := s.budget_step
    rw [cost_append]
    omega

/-! ### Words of 32 bits -/

/-- The numbers that a scanner keeps, against the size of its text. -/
structure Narrow (size : Nat) (s : Scanner) : Prop where
  pos : s.pos + Text.byteSize s.rest = size
  depth : s.depth ≤ s.pos
  /-- A tab is one byte, and makes a margin wider by four. -/
  indents : ∀ width ∈ s.indents, width ≤ 4 * s.pos

/-- Going on in the text, past the characters that were taken. -/
theorem Narrow.moves {taken : List Char} (h : s.Narrow size) (hrest : s.rest = taken ++ t.rest)
    (hpos : t.pos = s.pos + Text.byteSize taken) (hdepth : t.depth ≤ s.depth + Text.byteSize taken)
    (hindents : ∀ width ∈ t.indents, width ∈ s.indents ∨ width ≤ 4 * Text.byteSize taken) :
    t.Narrow size := by
  have hsize := h.pos
  have hbound := h.depth
  rw [hrest, Cut.byteSize_append] at hsize
  refine ⟨by omega, by omega, fun width hwidth => ?_⟩
  rcases hindents width hwidth with hold | hnew
  · have := h.indents width hold
    omega
  · omega

theorem marginWidth_le (cs : List Char) : marginWidth cs ≤ 4 * Text.byteSize cs := by
  induction cs with
  | nil => exact Nat.zero_le _
  | cons c cs ih =>
    have hchar : (marginWidth? c).getD 0 ≤ 4 := by
      rw [marginWidth?]
      repeat' split
      all_goals decide
    have hpos := c.utf8Size_pos
    show (marginWidth? c).getD 0 + marginWidth cs ≤ 4 * (c.utf8Size + Text.byteSize cs)
    omega

theorem MarginCase.narrow (hcase : MarginCase s p) (h : s.Narrow size) : p.found.2.Narrow size := by
  have hsplit : s.rest = s.rest.takeWhile isMargin ++ s.pastMargin.rest :=
    List.takeWhile_append_dropWhile.symm
  cases hcase with
  | bare => exact h.moves hsplit rfl (Nat.le_add_right _ _) fun _ => .inl
  | opens =>
    refine h.moves hsplit rfl (Nat.le_add_right _ _) fun width hwidth => ?_
    rcases List.mem_cons.1 hwidth with rfl | hold
    · exact .inr (marginWidth_le _)
    · exact .inl hold
  | closes | uneven =>
    exact h.moves hsplit rfl (Nat.le_add_right _ _) fun width hwidth =>
      .inl ((List.dropWhile_sublist _).mem hwidth)

/-- Only a bracket changes the depth, by one. -/
theorem depth_readToken {c : Char} {cs : List Char} {result : Found}
    (h : s.readToken c cs = (result, t)) :
    t.indents = s.indents ∧ t.depth + s.pos ≤ s.depth + t.pos := by
  cases tokenCase_of_eq h with
  | string _ _ ht | command _ _ ht | integer _ _ ht | largeInteger _ _ ht | word _ _ _ ht =>
    subst ht
    exact ⟨rfl, Nat.add_le_add_left (Nat.le_add_right _ _) _⟩
  | openString | openCommand => exact ⟨rfl, Nat.add_le_add_left (Nat.le_add_right _ _) _⟩
  | stray => exact ⟨rfl, Nat.le_refl _⟩
  | @mark r _ _ hmark ht =>
    have hbracket : bracketDepth s.depth r.value ≤ s.depth + 1 := by
      rw [bracketDepth.eq_def]
      split <;> omega
    have htaken := congrArg List.length (readMark_taken hmark)
    have hrest := length_rest_readMark hmark
    have hsize := length_le_byteSize r.taken
    rw [List.length_append, List.length_cons] at htaken
    subst ht
    refine ⟨rfl, ?_⟩
    show bracketDepth s.depth r.value + s.pos ≤ s.depth + (s.pos + Text.byteSize r.taken)
    omega

theorem LineCase.narrow (hcase : LineCase s p) (h : s.Narrow size) : p.found.2.Narrow size := by
  have htoken : ∀ {c : Char} {cs : List Char} {result : Found} {t : Scanner}, s.rest = c :: cs →
      s.readToken c cs = (result, t) → t.Narrow size := by
    intro c cs result t hs hread
    obtain ⟨taken, hrest, hpos, -⟩ := readToken_takes hs hread
    obtain ⟨hindents, hdepth⟩ := depth_readToken hread
    exact h.moves hrest hpos (by omega) fun width hwidth => .inl (hindents ▸ hwidth)
  cases hcase with
  | finishes =>
    exact ⟨h.pos, h.depth, fun width hwidth => h.indents width (List.mem_of_mem_drop hwidth)⟩
  | comment =>
    exact h.moves List.takeWhile_append_dropWhile.symm rfl (Nat.le_add_right _ _) fun _ => .inl
  | inner hs | empty hs =>
    exact h.moves (show s.rest = ['\n'] ++ _ from hs) rfl (Nat.le_add_right _ _) fun _ => .inl
  | ends hs _ _ ht =>
    subst ht
    exact h.moves (show s.rest = ['\n'] ++ _ from hs) rfl (Nat.le_add_right _ _) fun _ => .inl
  | token hs _ _ hread =>
    have ht := htoken hs hread
    exact ⟨ht.pos, ht.depth, ht.indents⟩
  | fault hs _ _ hread => exact htoken hs hread

theorem narrow_step (h : s.Narrow size) : s.step.found.2.Narrow size := by
  have hcase := s.step_case
  generalize s.step = p at hcase ⊢
  cases hcase with
  | waiting => exact ⟨h.pos, h.depth, h.indents⟩
  | ended => exact h
  | margin _ hcase => exact hcase.narrow h
  | line _ hcase =>
    exact hcase.narrow (h.moves List.takeWhile_append_dropWhile.symm rfl (Nat.le_add_right _ _)
      fun _ => .inl)

theorem Emits.narrow (hrun : Emits s rs t) (h : s.Narrow size) : t.Narrow size := by
  induction hrun using Emits.induction with
  | refl s => exact h
  | step s rs u _ ih => exact ih (narrow_step h)

/-- **The numbers of a scanner fit into words of 32 bits**, all along a text of
fewer than `2 ^ 30` bytes: its place in the text, the brackets that are open, the
margins of the open blocks, and the margin that it may be about to measure. -/
theorem Emits.fits {text : String} (hrun : Emits (ofText text) rs t)
    (hsize : Text.byteSize text.toList < 2 ^ 30) :
    t.pos < 2 ^ 32 ∧ t.depth < 2 ^ 32 ∧ t.lineWidth < 2 ^ 32 ∧
      ∀ width ∈ t.indents, width < 2 ^ 32 := by
  obtain ⟨hpos, hdepth, hindents⟩ : t.Narrow (Text.byteSize text.toList) :=
    hrun.narrow ⟨Nat.zero_add _, Nat.le_refl _, by simp [ofText]⟩
  have hmargin : t.lineWidth ≤ 4 * Text.byteSize (t.rest.takeWhile isMargin) := marginWidth_le _
  have hsplit := congrArg Text.byteSize (t.rest.takeWhile_append_dropWhile (p := isMargin))
  rw [Cut.byteSize_append] at hsplit
  refine ⟨by omega, by omega, by omega, fun width hwidth => ?_⟩
  have := hindents width hwidth
  omega

/-! ### Tokens as calls -/

/-- The tokens of a text are found by calls, one for each token; or by calls up to
one that finds a fault. -/
theorem tokens_eq_calls (s : Scanner) :
    ∃ xs r, (∀ x ∈ xs, x.token ≠ .eof) ∧ (s.calls (xs.length + 1)).1 = xs.map .ok ++ [r] ∧
      ((∃ fault, r = .error fault ∧ s.tokens = .error fault) ∨
        ∃ x, r = .ok x ∧ x.token = .eof ∧ s.tokens = .ok (xs ++ [x])) := by
  fun_induction tokens s with
  | case1 s fault t hnext =>
    refine ⟨[], .error fault, List.forall_mem_nil _, ?_, .inl ⟨fault, rfl, rfl⟩⟩
    rw [List.length_nil, calls, hnext]
    rfl
  | case2 s x t hnext heof =>
    refine ⟨[], .ok x, List.forall_mem_nil _, ?_, .inr ⟨x, rfl, heof, rfl⟩⟩
    rw [List.length_nil, calls, hnext]
    rfl
  | case3 s x t hnext hx fault htokens ih =>
    obtain ⟨xs, r, hxs, hcalls, ⟨_, rfl, hfault⟩ | ⟨_, -, -, hok⟩⟩ := ih
    · cases htokens.symm.trans hfault
      refine ⟨x :: xs, _, List.forall_mem_cons.2 ⟨hx, hxs⟩, ?_, .inl ⟨fault, rfl, rfl⟩⟩
      rw [List.length_cons, calls, hnext, hcalls]
      rfl
    · cases htokens.symm.trans hok
  | case4 s x t hnext hx later htokens ih =>
    obtain ⟨xs, r, hxs, hcalls, ⟨_, -, hfault⟩ | ⟨y, rfl, hy, hok⟩⟩ := ih
    · cases htokens.symm.trans hfault
    · cases htokens.symm.trans hok
      refine ⟨x :: xs, _, List.forall_mem_cons.2 ⟨hx, hxs⟩, ?_, .inr ⟨y, rfl, hy, rfl⟩⟩
      rw [List.length_cons, calls, hnext, hcalls]
      rfl

/-! ### Behind the end mark -/

/-- A step yields the end mark only where nothing else is left. -/
theorem eof_of_step (hpending : ∀ y ∈ s.pending, y.token ≠ .eof)
    (h : s.step = .emit (.ok x) t) (hx : x.token = .eof) :
    s.pending = [] ∧ s.ended = true := by
  have hlayout := s.step_layout
  rw [h] at hlayout
  cases hlayout with
  | yields hp => exact absurd hx (hpending x (hp ▸ List.mem_cons_self))
  | stays span hp he => exact ⟨hp, he⟩
  | closes width span hplain => exact absurd hx (hplain x List.mem_cons_self).2.2
  | keeps hplain => exact absurd hx (hplain x List.mem_cons_self).2.2

/-- A scanner that yields the end mark stays where it is. -/
theorem next_of_eof {s t : Scanner} {x : Lexeme} {rs : List Found} (hs : Ledger rs s)
    (h : s.next = (.ok x, t)) (hx : x.token = .eof) : t.next = (.ok x, t) := by
  fun_induction next s with
  | case1 s r u hstep =>
    cases h
    obtain ⟨hp, he⟩ := eof_of_step hs.last hstep hx
    have hstay := step_of_ended hp he
    cases hstep.symm.trans hstay
    exact next_of_emit hstay
  | case2 s u hstep ih =>
    have hlayout := s.step_layout
    rw [hstep] at hlayout
    exact ih (List.append_nil rs ▸ hs.step hlayout) h

theorem calls_of_next (h : s.next = (.ok x, s)) (n : Nat) :
    s.calls n = (.replicate n (.ok x), s) := by
  induction n with
  | zero => rfl
  | succ n ih =>
    rw [calls, h, ih]
    rfl

/-- Once the end mark has been yielded the next call yields it again. -/
theorem next_after_eof (hs : Ledger rs s) (n : Nat) (h : .ok x ∈ (s.calls n).1)
    (hx : x.token = .eof) : (s.calls n).2.next = (.ok x, (s.calls n).2) := by
  induction n generalizing s rs with
  | zero => cases h
  | succ n ih =>
    rcases List.mem_cons.1 h with hfirst | hlater
    · have hnext := next_of_eof hs (Prod.ext hfirst.symm rfl) hx
      rw [calls, calls_of_next hnext n]
      exact hnext
    · exact ih (hs.emits (emits_next s)) hlater

end Scanner

/-! ### Main result -/

open Scanner

/-- **Scanning ends, and a text has no more tokens than twice its bytes and two.**

* From every state of a scanner, one that a text leads to or any other, a call makes
  finitely many steps that yield nothing, and then one that yields its result.
* The tokens of a text are found by at most `2 · size + 2` calls.  The last of them
  yields a fault, which is then told, or the end mark; the tokens are what the calls
  have yielded.
* Once a call has yielded the end mark, all further calls yield the same end mark. -/
theorem scanning_ends (text : String) :
    (∀ s : Scanner, ∃ n t, n ≤ 3 * s.rest.length + 2 ∧ Idles n s t ∧
      t.step = .emit s.next.1 s.next.2) ∧
    (∃ xs r, xs.length + 1 ≤ 2 * Text.byteSize text.toList + 2 ∧
      ((ofText text).calls (xs.length + 1)).1 = xs.map .ok ++ [r] ∧
      ((∃ fault, r = .error fault ∧ tokenize text = .error fault) ∨
        ∃ x, r = .ok x ∧ x.token = .eof ∧ tokenize text = .ok (xs ++ [x]))) ∧
    ∀ k x, .ok x ∈ ((ofText text).calls k).1 → x.token = .eof →
      ∀ n, (((ofText text).calls k).2.calls n).1 = .replicate n (.ok x) := by
  refine ⟨fun s => ?_, ?_, fun k x hmem hx n => ?_⟩
  · obtain ⟨n, t, hn, hidles, hlast⟩ := s.exists_idles
    exact ⟨n, t, hn.trans s.effort_le, hidles, hlast⟩
  · obtain ⟨xs, r, hxs, hcalls, hend⟩ := (ofText text).tokens_eq_calls
    refine ⟨xs, r, ?_, hcalls, hend⟩
    have hpaid := (emits_calls (xs.length + 1) (ofText text)).budget_le
    rw [hcalls, cost_append, cost_tokens hxs] at hpaid
    have hbudget : (ofText text).budget = 2 * text.toList.length + 1 := rfl
    have hsize := length_le_byteSize text.toList
    omega
  · rw [calls_of_next (next_after_eof (ledger_ofText text) k hmem hx) n]

/-- A string that is not closed, and a line behind it: the fourth call yields the end
mark, and so do all later ones. -/
theorem scanning_ends_behind_fault :
    ((ofText "「\na").calls 4).1 = [.error ⟨.unterminatedString, ⟨0, 3⟩⟩, .ok ⟨.ident "a", ⟨4, 5⟩⟩,
      .ok ⟨.newline, ⟨5, 5⟩⟩, .ok ⟨.eof, ⟨5, 5⟩⟩] ∧
    ∀ n, (((ofText "「\na").calls 4).2.calls n).1 = .replicate n (.ok ⟨.eof, ⟨5, 5⟩⟩) := by
  have hcalls : ((ofText "「\na").calls 4).1 = [.error ⟨.unterminatedString, ⟨0, 3⟩⟩,
      .ok ⟨.ident "a", ⟨4, 5⟩⟩, .ok ⟨.newline, ⟨5, 5⟩⟩, .ok ⟨.eof, ⟨5, 5⟩⟩] := by
    decide +kernel
  refine ⟨hcalls, (scanning_ends "「\na").2.2 4 ⟨.eof, ⟨5, 5⟩⟩ ?_ rfl⟩
  rw [hcalls]
  simp

end Dncl
