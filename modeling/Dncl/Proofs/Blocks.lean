/-
Dncl/Proofs/Blocks.lean

Blocks are opened and closed in balance.

`Scanner.calls n s` is what `n` calls of `Scanner.next` yield, faults included,
with the scanner that they lead to.  At every time

    blocks opened  =  blocks closed  +  margins above the outermost one,

where tokens that are pending count as well; the open margins rise strictly
from 0 towards the innermost one.

Design.  `Emits` takes calls apart into single steps.  Of a step only what it
does to the open margins and to the pending tokens matters (`LayoutStep`); the
invariant `Ledger` is kept by every such step, and so by every call.
-/
import Dncl.Proofs.Lines

namespace Dncl

/-- What one call yields. -/
abbrev Found :=
  Except LexError Lexeme

/-- What a step yields, if anything, and where it leads. -/
def Progress.found : Progress → List Found × Scanner
  | .again t => ([], t)
  | .emit r t => ([r], t)

namespace Scanner

/-! ### Calls and steps -/

/-- What `n` calls yield one after the other, whatever the faults, and the scanner
after them. -/
def calls : Nat → Scanner → List Found × Scanner
  | 0, s => ([], s)
  | n + 1, s => (s.next.1 :: (calls n s.next.2).1, (calls n s.next.2).2)

/-- Steps that lead from `s` to `t` and yield `rs` on the way. -/
inductive Emits : Scanner → List Found → Scanner → Prop
  | refl (s : Scanner) : Emits s [] s
  | again {s t u : Scanner} {rs : List Found} : s.step = .again t → Emits t rs u → Emits s rs u
  | emit {s t u : Scanner} {r : Found} {rs : List Found} : s.step = .emit r t → Emits t rs u →
      Emits s (r :: rs) u

variable {s t u : Scanner} {r : Found} {rs rs' : List Found}

theorem Emits.trans (h₁ : Emits s rs t) (h₂ : Emits t rs' u) : Emits s (rs ++ rs') u := by
  induction h₁ with
  | refl s => exact h₂
  | again hstep _ ih => exact .again hstep (ih h₂)
  | emit hstep _ ih => exact .emit hstep (ih h₂)

theorem Emits.single (h : s.step = .emit r t) : Emits s [r] t :=
  .emit h (.refl t)

theorem Emits.step (h : Emits s.step.found.2 rs t) : Emits s (s.step.found.1 ++ rs) t := by
  cases hstep : s.step with
  | again u =>
    rw [hstep] at h
    exact .again hstep h
  | emit r u =>
    rw [hstep] at h
    exact .emit hstep h

/-- By induction on the steps of a run, whether they yield something or not. -/
theorem Emits.induction {motive : ∀ s rs t, Emits s rs t → Prop}
    (refl : ∀ s, motive s [] s (.refl s))
    (step : ∀ s rs t (h : Emits s.step.found.2 rs t), motive _ rs t h → motive s _ t h.step)
    {s : Scanner} {rs : List Found} {t : Scanner} (h : Emits s rs t) : motive s rs t h := by
  induction h with
  | refl s => exact refl s
  | @again s t u rs hstep h ih =>
    obtain ⟨hnil, rfl⟩ : s.step.found.1 = [] ∧ s.step.found.2 = t := by
      rw [hstep]
      exact ⟨rfl, rfl⟩
    simpa only [hnil, List.nil_append] using step s rs u h ih
  | @emit s t u r rs hstep h ih =>
    obtain ⟨hone, rfl⟩ : s.step.found.1 = [r] ∧ s.step.found.2 = t := by
      rw [hstep]
      exact ⟨rfl, rfl⟩
    simpa only [hone, List.singleton_append] using step s rs u h ih

theorem emits_next (s : Scanner) : Emits s [s.next.1] s.next.2 := by
  fun_induction next s with
  | case1 s r t hstep => exact .single hstep
  | case2 s t hstep ih => exact .again hstep ih

theorem emits_calls (n : Nat) (s : Scanner) : Emits s (s.calls n).1 (s.calls n).2 := by
  induction n generalizing s with
  | zero => exact .refl s
  | succ n ih => exact (emits_next s).trans (ih s.next.2)

/-- Steps are calls, up to steps at the end that yield nothing yet. -/
theorem Emits.exists_calls (h : Emits s rs t) :
    ∃ n u, s.calls n = (rs, u) ∧ u.next = t.next := by
  induction h with
  | refl s => exact ⟨0, s, rfl, rfl⟩
  | @again s t u rs hstep _ ih =>
    obtain ⟨n, v, hcalls, hnext⟩ := ih
    cases n with
    | zero =>
      cases hcalls
      exact ⟨0, s, rfl, (next_of_again hstep).trans hnext⟩
    | succ n =>
      refine ⟨n + 1, v, ?_, hnext⟩
      rw [← hcalls, calls, calls, next_of_again hstep]
  | emit hstep _ ih =>
    obtain ⟨n, v, hcalls, hnext⟩ := ih
    refine ⟨n + 1, v, ?_, hnext⟩
    rw [calls, next_of_emit hstep, hcalls]

theorem calls_prefix (n : Nat) (s : Scanner) (h : rs <+: (s.calls n).1) :
    (s.calls rs.length).1 = rs := by
  induction n generalizing s rs with
  | zero =>
    rw [List.prefix_nil.1 h]
    rfl
  | succ n ih =>
    cases rs with
    | nil => rfl
    | cons r rs =>
      obtain ⟨rfl, hrest⟩ := List.cons_prefix_cons.1 h
      rw [List.length_cons, calls, ih _ hrest]

end Scanner

/-! ### Counting blocks -/

/-- Whether the token `t` was found. -/
def Found.isToken (t : Token) : Found → Bool
  | .ok x => x.token == t
  | .error _ => false

/-- Whether it was found within a line: it is neither a layout token nor an
uneven margin. -/
def Found.isSolid : Found → Bool
  | .ok x => x.token.isSolid
  | .error fault => fault.cause != .unevenIndent

/-- Where it was found. -/
def Found.start : Found → Nat
  | .ok x => x.span.start
  | .error fault => fault.span.start

/-- How many blocks are opened. -/
def opened (rs : List Found) : Nat :=
  rs.countP (Found.isToken .indent)

/-- How many blocks are closed. -/
def closed (rs : List Found) : Nat :=
  rs.countP (Found.isToken .dedent)

section Counting

variable {rs rs' : List Found}

@[simp] theorem opened_append : opened (rs ++ rs') = opened rs + opened rs' :=
  List.countP_append

@[simp] theorem closed_append : closed (rs ++ rs') = closed rs + closed rs' :=
  List.countP_append

@[simp] theorem opened_dedents (n : Nat) (span : Span) :
    opened (.replicate n (.ok ⟨.dedent, span⟩)) = 0 := by
  simp [opened, List.countP_replicate, Found.isToken]

@[simp] theorem closed_dedents (n : Nat) (span : Span) :
    closed (.replicate n (.ok ⟨.dedent, span⟩)) = n := by
  simp [closed, List.countP_replicate, Found.isToken]

/-- Neither blocks nor the end are among what was found. -/
def Plain (rs : List Found) : Prop :=
  ∀ x, .ok x ∈ rs → x.token ≠ .indent ∧ x.token ≠ .dedent ∧ x.token ≠ .eof

theorem plain_nil : Plain [] := nofun

theorem plain_error (fault : LexError) : Plain [.error fault] := by
  rintro x (_ | ⟨_, ⟨⟩⟩)

theorem plain_newline (span : Span) : Plain [.ok ⟨.newline, span⟩] := by
  intro x hx
  cases List.mem_singleton.1 hx
  exact ⟨nofun, nofun, nofun⟩

theorem plain_of_isSolid {r : Found} (h : r.isSolid = true) : Plain [r] := by
  intro x hx
  cases List.mem_singleton.1 hx
  exact ⟨Token.ne_of_isSolid h rfl, Token.ne_of_isSolid h rfl, Token.ne_of_isSolid h rfl⟩

theorem Plain.opened_eq (h : Plain rs) : opened rs = 0 := by
  rw [opened, List.countP_eq_zero]
  rintro (fault | x) hx
  · exact nofun
  · simpa [Found.isToken] using (h x hx).1

theorem Plain.closed_eq (h : Plain rs) : closed rs = 0 := by
  rw [closed, List.countP_eq_zero]
  rintro (fault | x) hx
  · exact nofun
  · simpa [Found.isToken] using (h x hx).2.1

end Counting

/-! ### What a step does to the layout -/

namespace Scanner

variable {s t u : Scanner} {r : Found} {rs rs' : List Found}

/-- What a step that yields `rs` does to the open margins and to the tokens that
are pending. -/
inductive LayoutStep (s : Scanner) : List Found → Scanner → Prop
  | yields {x : Lexeme} {later : List Lexeme} : s.pending = x :: later →
      LayoutStep s [.ok x] { s with pending := later }
  | stays (span : Span) : s.pending = [] → s.ended = true → LayoutStep s [.ok ⟨.eof, span⟩] s
  | opens {t : Scanner} (width : Nat) (span : Span) : s.pending = [] → s.ended = false →
      s.indents.headD 0 < width → t.ended = false → t.indents = width :: s.indents →
      t.pending = [⟨.indent, span⟩] → LayoutStep s [] t
  | closes {t : Scanner} {rs : List Found} (width : Nat) (span : Span) : Plain rs →
      s.pending = [] → s.ended = false → t.ended = false →
      t.indents = marginsUpTo width s.indents →
      t.pending = .replicate (s.indents.length - t.indents.length) ⟨.dedent, span⟩ →
      LayoutStep s rs t
  | finishes {t : Scanner} {breaks : List Lexeme} (span : Span) : Plain (breaks.map .ok) →
      s.pending = [] → s.ended = false → t.indents = s.indents.drop (s.indents.length - 1) →
      t.pending = breaks ++ .replicate (s.indents.length - 1) ⟨.dedent, span⟩ → LayoutStep s [] t
  | keeps {t : Scanner} {rs : List Found} : Plain rs → s.pending = [] → s.ended = false →
      t.ended = false → t.indents = s.indents → t.pending = [] → LayoutStep s rs t

/-- Within a line a token or a fault is found where the scanner stands.  The
scanner moves on in the text and counts brackets. -/
theorem readToken_found (s : Scanner) (c : Char) (cs : List Char) :
    Found.isSolid (s.readToken c cs).1 = true ∧ Found.start (s.readToken c cs).1 = s.pos ∧
      ∃ rest pos depth, (s.readToken c cs).2 =
        { s with rest := rest, pos := pos, depth := depth } := by
  have hcase := s.readToken_case c cs
  generalize s.readToken c cs = found at hcase ⊢
  cases hcase with
  | openString | openCommand | stray => exact ⟨rfl, rfl, _, _, _, rfl⟩
  | string _ _ ht | command _ _ ht | integer _ _ ht | largeInteger _ _ ht | mark _ _ ht =>
    subst ht
    exact ⟨rfl, rfl, _, _, _, rfl⟩
  | word _ _ _ ht =>
    subst ht
    exact ⟨(readWord_solid c cs).1, rfl, _, _, _, rfl⟩

theorem MarginCase.layout {p : Progress} (h : MarginCase s p) (hp : s.pending = [])
    (he : s.ended = false) : LayoutStep s p.found.1 p.found.2 := by
  cases h with
  | bare => exact .keeps plain_nil hp he he rfl hp
  | opens hbare hwider => exact .opens _ _ hp he hwider he rfl rfl
  | closes => exact .closes _ _ plain_nil hp he he rfl rfl
  | uneven => exact .closes _ _ (plain_error _) hp he he rfl rfl

theorem finish_layout (hp : s.pending = []) (he : s.ended = false) :
    LayoutStep s [] (s.skipWhile isGap).finish := by
  refine .finishes _ ?_ hp he rfl rfl
  show Plain ((if s.lineUsed then [_] else []).map .ok)
  cases s.lineUsed with
  | false => exact plain_nil
  | true => exact plain_newline _

theorem LineCase.layout {p : Progress} (h : LineCase (s.skipWhile isGap) p)
    (hp : s.pending = []) (he : s.ended = false) : LayoutStep s p.found.1 p.found.2 := by
  cases h with
  | finishes => exact finish_layout hp he
  | comment | inner | empty => exact .keeps plain_nil hp he he rfl hp
  | ends _ _ _ ht =>
    subst ht
    exact .keeps (plain_newline _) hp he he rfl hp
  | @token c cs _ _ _ _ _ htoken =>
    obtain ⟨hsolid, -, rest, pos, depth, hmoves⟩ := (s.skipWhile isGap).readToken_found c cs
    rw [htoken] at hsolid hmoves
    subst hmoves
    exact .keeps (plain_of_isSolid hsolid) hp he he rfl hp
  | @fault c cs _ _ _ _ _ htoken =>
    obtain ⟨-, -, rest, pos, depth, hmoves⟩ := (s.skipWhile isGap).readToken_found c cs
    rw [htoken] at hmoves
    subst hmoves
    exact .keeps (plain_error _) hp he he rfl hp

theorem step_layout (s : Scanner) : LayoutStep s s.step.found.1 s.step.found.2 := by
  have hcase := s.step_case
  generalize s.step = p at hcase ⊢
  cases hcase with
  | waiting hp => exact .yields hp
  | ended hp he => exact .stays _ hp he
  | margin h hcase => exact hcase.layout h.pending h.ended
  | line h hcase => exact hcase.layout h.pending h.ended

/-! ### The ledger -/

/-- The open margins below a width go down to the outermost one. -/
theorem getLast?_marginsUpTo {is : List Nat} (h : is.getLast? = some 0) (width : Nat) :
    (marginsUpTo width is).getLast? = some 0 := by
  induction is with
  | nil => cases h
  | cons m ms ih =>
    rw [marginsUpTo, List.dropWhile_cons]
    split
    · rename_i hm
      cases ms with
      | nil =>
        cases h
        simp at hm
      | cons m' ms =>
        rw [List.getLast?_cons_cons] at h
        exact ih h
    · exact h

/-- The accounts of a scanner that has yielded `rs` since the start of the text. -/
structure Ledger (rs : List Found) (s : Scanner) : Prop where
  rising : Rising s.indents
  bottom : s.indents.getLast? = some 0
  balance : opened (rs ++ s.pending.map .ok) =
    closed (rs ++ s.pending.map .ok) + (s.indents.length - 1)
  /-- A block that is opened and pending is open. -/
  waiting : opened (s.pending.map .ok) < s.indents.length
  /-- At the end only the outermost margin is open. -/
  ended : s.ended = true → s.indents.length = 1
  /-- The end mark is never pending, and nothing comes behind it. -/
  last : ∀ x ∈ s.pending, x.token ≠ .eof
  final : ∀ x, .ok x ∈ rs → x.token = .eof → s.ended = true ∧ s.pending = []

theorem ledger_ofText (text : String) : Ledger [] (ofText text) where
  rising := List.pairwise_singleton _ _
  bottom := rfl
  balance := rfl
  waiting := Nat.zero_lt_one
  ended := nofun
  last := nofun
  final := nofun

namespace Ledger

theorem length_pos (h : Ledger rs s) : 0 < s.indents.length :=
  Nat.lt_of_le_of_lt (Nat.zero_le _) h.waiting

theorem balance_of_nil (h : Ledger rs s) (hp : s.pending = []) :
    opened rs = closed rs + (s.indents.length - 1) := by
  simpa [hp] using h.balance

/-- Until a scanner has ended the end mark is not yielded. -/
theorem not_over (h : Ledger rs s) (he : s.ended = false) (hplain : Plain rs') (x : Lexeme)
    (hx : .ok x ∈ rs ++ rs') : x.token ≠ .eof := by
  intro heof
  rcases List.mem_append.1 hx with hx | hx
  · exact absurd (he.symm.trans (h.final x hx heof).1) Bool.false_ne_true
  · exact (hplain x hx).2.2 heof

theorem yields {x : Lexeme} {later : List Lexeme} (h : Ledger rs s) (hp : s.pending = x :: later) :
    Ledger (rs ++ [.ok x]) { s with pending := later } := by
  have hsplit : (s.pending.map .ok : List Found) = [.ok x] ++ later.map .ok := by
    rw [hp]
    rfl
  refine ⟨h.rising, h.bottom, ?_, ?_, h.ended, ?_, ?_⟩
  · rw [List.append_assoc, ← hsplit]
    exact h.balance
  · have hwaiting := h.waiting
    rw [hsplit, opened_append] at hwaiting
    exact Nat.lt_of_le_of_lt (Nat.le_add_left _ _) hwaiting
  · exact fun y hy => h.last y (hp ▸ List.mem_cons_of_mem x hy)
  · intro y hy heof
    rcases List.mem_append.1 hy with hy | hy
    · exact absurd ((h.final y hy heof).2.symm.trans hp) (List.cons_ne_nil _ _).symm
    · cases List.mem_singleton.1 hy
      exact absurd heof (h.last x (hp ▸ List.mem_cons_self))

theorem opens {width : Nat} {span : Span} (h : Ledger rs s) (hp : s.pending = [])
    (he : s.ended = false) (hwider : s.indents.headD 0 < width) (he' : t.ended = false)
    (hindents : t.indents = width :: s.indents) (hp' : t.pending = [⟨.indent, span⟩]) :
    Ledger rs t := by
  have hpos := h.length_pos
  have hbalance := h.balance_of_nil hp
  refine ⟨?_, ?_, ?_, ?_, ?_, ?_, ?_⟩
  · rw [hindents]
    exact .cons (fun w hw => Nat.lt_of_le_of_lt (h.rising.le_headD hw) hwider) h.rising
  · rw [hindents, List.getLast?_cons, h.bottom]
    rfl
  · rw [hindents, hp', List.map_singleton, opened_append, closed_append, List.length_cons]
    show opened rs + 1 = closed rs + 0 + _
    omega
  · rw [hindents, hp']
    exact Nat.succ_lt_succ hpos
  · exact fun hend => absurd (he'.symm.trans hend) Bool.false_ne_true
  · rw [hp']
    intro x hx
    cases List.mem_singleton.1 hx
    exact nofun
  · exact fun x hx heof => absurd heof (h.not_over he plain_nil x (List.mem_append_left [] hx))

/-- Blocks are closed: as many margins are gone as tokens are pending. -/
theorem closes (breaks : List Lexeme) (span : Span) (h : Ledger rs s) (hp : s.pending = [])
    (he : s.ended = false) (hplain : Plain rs') (hbreaks : Plain (breaks.map .ok))
    (hindents : t.indents <:+ s.indents) (hbottom : t.indents.getLast? = some 0)
    (hp' : t.pending = breaks ++
      .replicate (s.indents.length - t.indents.length) ⟨.dedent, span⟩)
    (hend : t.ended = true → t.indents.length = 1) : Ledger (rs ++ rs') t := by
  have hbalance := h.balance_of_nil hp
  have hle := hindents.length_le
  have hpos : 0 < t.indents.length := by
    apply List.length_pos_of_ne_nil
    rintro hnil
    rw [hnil] at hbottom
    cases hbottom
  have hmarks : (t.pending.map .ok : List Found) = breaks.map .ok ++
      .replicate (s.indents.length - t.indents.length) (.ok ⟨.dedent, span⟩) := by
    rw [hp', List.map_append, List.map_replicate]
  refine ⟨h.rising.sublist hindents.sublist, hbottom, ?_, ?_, hend, ?_, ?_⟩
  · simp only [hmarks, opened_append, closed_append, hplain.opened_eq, hplain.closed_eq,
      hbreaks.opened_eq, hbreaks.closed_eq, opened_dedents, closed_dedents]
    omega
  · rw [hmarks, opened_append, hbreaks.opened_eq, opened_dedents]
    exact hpos
  · rw [hp']
    intro x hx
    rcases List.mem_append.1 hx with hx | hx
    · exact (hbreaks x (List.mem_map_of_mem hx)).2.2
    · rw [List.eq_of_mem_replicate hx]
      exact nofun
  · exact fun x hx heof => absurd heof (h.not_over he hplain x hx)

/-- **Every step keeps the ledger.** -/
theorem step (h : Ledger rs s) (hstep : LayoutStep s rs' t) : Ledger (rs ++ rs') t := by
  cases hstep with
  | yields hp => exact h.yields hp
  | stays span hp he =>
    refine ⟨h.rising, h.bottom, ?_, h.waiting, h.ended, h.last, fun _ _ _ => ⟨he, hp⟩⟩
    simpa [hp, opened, closed, Found.isToken] using h.balance
  | opens width span hp he hwider he' hindents hp' =>
    rw [List.append_nil]
    exact h.opens hp he hwider he' hindents hp'
  | closes width span hplain hp he he' hindents hp' =>
    refine h.closes [] span hp he hplain plain_nil ?_ ?_ hp' ?_
    · rw [hindents]
      exact List.dropWhile_suffix _
    · rw [hindents]
      exact getLast?_marginsUpTo h.bottom width
    · exact fun hend => absurd (he'.symm.trans hend) Bool.false_ne_true
  | finishes span hplain hp he hindents hp' =>
    -- the end closes all blocks but the outermost
    have hlength : t.indents.length = 1 := by
      rw [hindents, List.length_drop]
      exact Nat.sub_sub_self h.length_pos
    refine h.closes _ span hp he plain_nil hplain ?_ ?_ (hlength.symm ▸ hp') fun _ => hlength
    · rw [hindents]
      exact List.drop_suffix _ _
    · rw [hindents, List.getLast?_drop, if_neg (by have := h.length_pos; omega)]
      exact h.bottom
  | keeps hplain hp he he' hindents hp' =>
    refine h.closes [] ⟨0, 0⟩ hp he hplain plain_nil ?_ ?_ ?_ ?_
    · exact hindents ▸ List.suffix_rfl
    · rw [hindents]
      exact h.bottom
    · rw [hindents, hp', Nat.sub_self]
      rfl
    · exact fun hend => absurd (he'.symm.trans hend) Bool.false_ne_true

/-- **Every run of steps keeps the ledger.** -/
theorem emits (h : Ledger rs s) (hrun : Emits s rs' t) : Ledger (rs ++ rs') t := by
  induction hrun using Emits.induction generalizing rs with
  | refl s =>
    rw [List.append_nil]
    exact h
  | step s rs' u _ ih =>
    rw [← List.append_assoc]
    exact ih (h.step s.step_layout)

/-- No more blocks were closed than opened. -/
theorem closed_le (h : Ledger rs s) : closed rs ≤ opened rs := by
  have hbalance := h.balance
  have hwaiting := h.waiting
  rw [opened_append, closed_append] at hbalance
  omega

/-- When the end mark has been yielded all blocks are closed. -/
theorem opened_eq (h : Ledger rs s) {x : Lexeme} (hx : .ok x ∈ rs) (heof : x.token = .eof) :
    opened rs = closed rs := by
  obtain ⟨hended, hp⟩ := h.final x hx heof
  have hbalance := h.balance_of_nil hp
  rw [h.ended hended] at hbalance
  exact hbalance

end Ledger

theorem ledger_calls (text : String) (n : Nat) :
    Ledger ((ofText text).calls n).1 ((ofText text).calls n).2 :=
  (ledger_ofText text).emits (emits_calls n _)

end Scanner

end Dncl
