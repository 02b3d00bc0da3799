/-
Dncl/Token/Stream.lean

The stream of tokens of a text.

`Scanner.next` steps until something is yielded, and `Scanner.tokens` collects
the tokens up to the end mark or the first fault.  Both end because a step
that yields nothing lowers `effort` (`effort_lt_of_step`), while a token other
than the end mark lowers `supply` (`supply_lt_of_next`).
-/
import Dncl.Token.Stepping

namespace Dncl

variable {s t : Scanner}

/-! ### Readers leave no more than they were given -/

theorem length_rest_readNameTail (cs : List Char) :
    (readNameTail cs).rest.length ≤ cs.length := by
  induction cs with
  | nil => exact Nat.le_refl _
  | cons c cs ih =>
    rw [readNameTail]
    split
    · exact Nat.le_refl _
    · exact Nat.le_succ_of_le ih

theorem Keyword.length_spelling_pos (k : Keyword) : 0 < k.spelling.length := by
  cases k <;> decide

theorem length_rest_readWord (c : Char) (cs : List Char) :
    (readWord c cs).rest.length ≤ cs.length := by
  rw [readWord]
  split
  · rename_i k _
    have := k.length_spelling_pos
    simp only [List.length_drop, List.length_cons]
    omega
  · exact length_rest_readNameTail cs

theorem length_rest_readString (close : Char) (cs : List Char) :
    (readString close cs).rest.length ≤ cs.length := by
  fun_induction readString close cs with
  | case1 => exact Nat.le_refl _
  | case2 => exact Nat.zero_le _
  | case3 _ _ _ ih => exact Nat.le_succ_of_le (Nat.le_succ_of_le ih)
  | case4 => exact Nat.le_succ _
  | case5 => exact Nat.le_succ _
  | case6 _ _ _ _ _ _ _ ih => exact Nat.le_succ_of_le ih

theorem length_rest_readCommand (cs : List Char) :
    (readCommand cs).rest.length ≤ cs.length := by
  induction cs with
  | nil => exact Nat.le_refl _
  | cons c cs ih =>
    rw [readCommand]
    split
    · exact Nat.le_succ _
    · split
      · exact Nat.le_succ _
      · exact Nat.le_succ_of_le ih

theorem length_rest_readMark {c : Char} {cs : List Char} {r : Reading Symbol}
    (h : readMark? c cs = some r) : r.rest.length ≤ cs.length := by
  -- a mark of one character leaves all of `cs`
  have single : ∀ r, ((Symbol.singles.lookup c).map fun s => (⟨s, [c], cs⟩ : Reading Symbol))
      = some r → r.rest.length ≤ cs.length := by
    intro r hr
    obtain ⟨s, _, rfl⟩ := Option.map_eq_some_iff.1 hr
    exact Nat.le_refl _
  rw [readMark?.eq_def] at h
  split at h
  · exact single r h
  · split at h
    · split at h
      · cases h
        exact Nat.le_succ _
      · exact single r h
    · exact single r h

theorem length_rest_readTally {c : Char} (cs : List Char) (h : isDigit c = true) :
    (readTally (c :: cs)).rest.length ≤ cs.length := by
  rw [readTally, List.dropWhile_cons_of_pos h]
  exact (List.dropWhile_sublist _).length_le

namespace Scanner

theorem length_rest_skipWhile (s : Scanner) (p : Char → Bool) :
    (s.skipWhile p).rest.length ≤ s.rest.length :=
  (List.dropWhile_sublist _).length_le

theorem effort_skipWhile (s : Scanner) (p : Char → Bool) :
    (s.skipWhile p).effort ≤ s.effort := by
  have := s.length_rest_skipWhile p
  simp only [effort]
  simp only [skipWhile, after] at this ⊢
  omega

theorem supply_skipWhile (s : Scanner) (p : Char → Bool) :
    (s.skipWhile p).supply ≤ s.supply := by
  have := s.length_rest_skipWhile p
  simp only [supply]
  simp only [skipWhile, after] at this ⊢
  omega

/-! ### One token -/

/-- A token takes at least its first character, and touches nothing of the
layout. -/
theorem readToken_ok {c : Char} {cs : List Char} {lexeme : Lexeme} (hs : s.rest = c :: cs)
    (h : s.readToken c cs = (.ok lexeme, t)) :
    t.rest.length ≤ cs.length ∧ t.pending = s.pending ∧ t.indents = s.indents := by
  cases tokenCase_of_eq h with
  | string _ _ ht =>
    subst ht
    exact ⟨length_rest_readString _ _, rfl, rfl⟩
  | command _ _ ht =>
    subst ht
    exact ⟨length_rest_readCommand _, rfl, rfl⟩
  | integer hdigit _ ht =>
    subst ht
    exact ⟨hs ▸ length_rest_readTally cs hdigit, rfl, rfl⟩
  | mark _ hmark ht =>
    subst ht
    exact ⟨length_rest_readMark hmark, rfl, rfl⟩
  | word _ _ _ ht =>
    subst ht
    exact ⟨length_rest_readWord c cs, rfl, rfl⟩

/-! ### One step -/

/-- A step at the start of a line that yields nothing. -/
theorem MarginCase.again (h : MarginCase s (.again t)) (hs : s.AtMargin) :
    t.effort < s.effort ∧ t.supply ≤ s.supply := by
  obtain ⟨hp, -, hl⟩ := hs
  have hsplit := congrArg List.length (List.takeWhile_append_dropWhile (p := isMargin) (l := s.rest))
  rw [List.length_append] at hsplit
  cases h with
  | bare =>
    simp only [effort, supply, pastMargin, hp, hl, List.length_nil, Bool.toNat_false,
      Bool.toNat_true]
    omega
  | opens _ hwider =>
    -- the margin has at least one character
    have hpos : 0 < (s.rest.takeWhile isMargin).length := by
      apply Nat.pos_of_ne_zero
      intro hzero
      rw [lineWidth, List.eq_nil_of_length_eq_zero hzero] at hwider
      exact Nat.not_lt_zero _ hwider
    simp only [effort, supply, pastMargin, openBlock, hp, hl, List.length_cons,
      List.length_nil, Bool.toNat_false, Bool.toNat_true]
    omega
  | closes =>
    -- each open margin gives one pending token
    have hdrop : (marginsUpTo s.lineWidth s.indents).length ≤ s.indents.length :=
      (List.dropWhile_sublist _).length_le
    simp only [effort, supply, pastMargin, closeBlocks, hp, hl, List.length_replicate,
      List.length_nil, Bool.toNat_false, Bool.toNat_true]
    omega

/-- A comment has at least its first character. -/
theorem length_dropWhile_comment {cs : List Char} (h : startsComment cs = true) :
    (cs.dropWhile (· ≠ '\n')).length < cs.length := by
  cases cs with
  | nil => cases h
  | cons c cs =>
    have hne : c ≠ '\n' := by
      rintro rfl
      simp [startsComment] at h
    rw [List.dropWhile_cons, if_pos (decide_eq_true hne)]
    exact Nat.lt_succ_of_le (List.dropWhile_sublist _).length_le

/-- A step within a line that yields nothing. -/
theorem LineCase.again (h : LineCase s (.again t)) (hs : s.Within) :
    t.effort < s.effort ∧ t.supply ≤ s.supply := by
  obtain ⟨hp, he, hl⟩ := hs
  cases h with
  | finishes hr =>
    simp only [effort, supply, finish, hp, he, hl, hr, List.length_drop, List.length_append,
      List.length_replicate, List.length_nil]
    cases s.lineUsed with
    | false => simp
    | true =>
      simp
      omega
  | comment hcomment =>
    have hlength := length_dropWhile_comment hcomment
    simp only [effort, supply, skipWhile, after]
    constructor <;> omega
  | inner hr =>
    simp only [effort, supply, after, hr, List.length_cons]
    constructor <;> omega
  | empty hr =>
    simp only [effort, supply, after, hr, hl, List.length_cons, Bool.toNat_false,
      Bool.toNat_true]
    omega

/-- A step that yields nothing lowers `effort` and does not raise `supply`. -/
theorem step_again (h : s.step = .again t) : t.effort < s.effort ∧ t.supply ≤ s.supply := by
  cases stepCase_of_eq h with
  | margin hs hcase => exact hcase.again hs
  | line hs hcase =>
    have hstep := hcase.again (hs.skipWhile isGap)
    have heffort := s.effort_skipWhile isGap
    have hsupply := s.supply_skipWhile isGap
    omega

theorem effort_lt_of_step (h : s.step = .again t) : t.effort < s.effort :=
  (step_again h).1

/-- A token other than the end mark lowers `supply`. -/
theorem supply_lt_of_step {lexeme : Lexeme} (h : s.step = .emit (.ok lexeme) t)
    (hl : lexeme.token ≠ .eof) : t.supply < s.supply := by
  cases stepCase_of_eq h with
  | waiting hp =>
    simp only [supply, hp, List.length_cons]
    omega
  | ended => exact absurd rfl hl
  | margin _ hcase =>
    -- at the start of a line only a fault is yielded
    cases hcase
  | line hs hcase =>
    have hskip := s.length_rest_skipWhile isGap
    cases hcase with
    | ends hr _ _ ht =>
      subst ht
      rw [hr, List.length_cons] at hskip
      simp only [supply, after, skipWhile, hs.pending, Bool.toNat_false]
      omega
    | token hr _ _ ht =>
      obtain ⟨hrest, hpending, hindents⟩ := readToken_ok hr ht
      rw [hr, List.length_cons] at hskip
      simp only [supply, hpending, hindents]
      simp only [skipWhile, after, hs.pending, Bool.toNat_true]
      omega

/-! ### The stream -/

/-- Steps until a token or a fault is yielded. -/
def next (s : Scanner) : Except LexError Lexeme × Scanner :=
  match _ : s.step with
  | .emit result t => (result, t)
  | .again t => t.next
termination_by s.effort
decreasing_by exact effort_lt_of_step ‹_›

theorem supply_lt_of_next {lexeme : Lexeme} (h : s.next = (.ok lexeme, t))
    (hl : lexeme.token ≠ .eof) : t.supply < s.supply := by
  fun_induction next s with
  | case1 s result u hstep =>
    cases h
    exact supply_lt_of_step hstep hl
  | case2 s u hstep ih =>
    exact Nat.lt_of_lt_of_le (ih h) (step_again hstep).2

/-- The tokens up to and including the end mark, or the first fault. -/
def tokens (s : Scanner) : Except LexError (List Lexeme) :=
  match _ : s.next with
  | (.error fault, _) => .error fault
  | (.ok lexeme, t) =>
    if _ : lexeme.token = .eof then .ok [lexeme]
    else
      match t.tokens with
      | .error fault => .error fault
      | .ok later => .ok (lexeme :: later)
termination_by s.supply
decreasing_by exact supply_lt_of_next ‹_› ‹_›

/-- What the scanner yields up to and including the end mark or the first
fault. -/
def yields (s : Scanner) : List (Except LexError Lexeme) :=
  match _ : s.next with
  | (.error fault, _) => [.error fault]
  | (.ok lexeme, t) =>
    if _ : lexeme.token = .eof then [.ok lexeme] else .ok lexeme :: t.yields
termination_by s.supply
decreasing_by exact supply_lt_of_next ‹_› ‹_›

/-- The scanner's place and open blocks, for a reader. -/
def describe (s : Scanner) : String :=
  let seen : Option Char → String
    | none => "None"
    | some c => "Some(" ++ Text.quoteChar c ++ ")"
  let widths := ", ".intercalate (s.indents.reverse.map toString)
  "Lexer \x7b\n\tposition: " ++ toString s.pos ++ ",\n\tch: " ++ seen s.rest.head?
    ++ ", next_ch: " ++ seen s.rest.tail.head? ++ ",\n\tindent: [" ++ widths ++ "]\n\x7d"

end Scanner

/-- The tokens of a program text, the end mark included. -/
def tokenize (text : String) : Except LexError (List Lexeme) :=
  (Scanner.ofText text).tokens

end Dncl
