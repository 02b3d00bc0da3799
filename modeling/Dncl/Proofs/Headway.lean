/-
Dncl/Proofs/Headway.lean

Parsing a list goes on to its end mark, and not beyond.

A list *ends once* (`EndsOnce`) if the end mark is its last item and no other.
There may be faults in it.  A window stands at an item of such a list, with the
items behind it in its feed.  Every statement and every expression moves the
window on by at least one item, and no phrase moves it past the end mark.  So
what is asked of the feed is the list and one item more.

Design.  Nothing tells how often an empty feed was asked.  So the list is parsed
with any items behind it, of which no more than the first may be taken.  Two such
windows, over the same list with different items behind it, move in step
(`Pace.along`); all else is what `Rules.Agree` says of each rule of the grammar.
-/
import Dncl.Proofs.Batch

namespace Dncl

variable {w w' : Window}

/-! ### Lists that end once -/

/-- The list has the end mark as its last item, and only there. -/
def EndsOnce (ts : List Item) : Prop :=
  ∃ before last, ts = before ++ [.ok last] ∧ last.token = .eof ∧
    ∀ x, .ok x ∈ before → x.token ≠ .eof

/-- No fault stands first. -/
def StartsClean (tail : List Item) : Prop :=
  ∀ e, tail.head? ≠ some (.error e)

section Lists

variable {ts tail : List Item} {i j : Nat}

theorem EndsOnce.length_pos (h : EndsOnce ts) : 0 < ts.length := by
  obtain ⟨before, last, rfl, -⟩ := h
  simp

/-- The end mark is the last item. -/
theorem EndsOnce.eof_iff (h : EndsOnce ts) {x : Lexeme} (hx : ts[i]? = some (.ok x)) :
    x.token = .eof ↔ i + 1 = ts.length := by
  obtain ⟨before, last, rfl, hlast, hbefore⟩ := h
  rw [List.length_append, List.length_singleton, Nat.add_right_cancel_iff]
  rcases Nat.lt_trichotomy i before.length with hi | rfl | hi
  · rw [List.getElem?_append_left hi] at hx
    exact iff_of_false (hbefore x (List.mem_of_getElem? hx)) hi.ne
  · rw [List.getElem?_concat_length] at hx
    cases hx
    exact iff_of_true hlast rfl
  · have hbehind : (before ++ [(.ok last : Item)]).length ≤ i := by
      rw [List.length_append, List.length_singleton]
      omega
    rw [List.getElem?_eq_none hbehind] at hx
    cases hx

/-- Up to the first item behind the list, the faults are those of the list. -/
theorem StartsClean.fault_iff (h : StartsClean tail) (hj : j ≤ ts.length) (e : LexError) :
    (ts ++ tail)[j]? = some (.error e) ↔ ts[j]? = some (.error e) := by
  rcases Nat.lt_or_eq_of_le hj with hlt | rfl
  · rw [List.getElem?_append_left hlt]
  · rw [List.getElem?_append_right (Nat.le_refl _), Nat.sub_self, ← List.head?_eq_getElem?,
      List.getElem?_eq_none (Nat.le_refl _)]
    exact iff_of_false (h e) (by simp)

end Lists

/-! ### Windows on a list -/

/-- A list of items brings the first that is not dropped. -/
theorem Feed.pull_drop (xs : List Item) (j : Nat) :
    (Feed.items (xs.drop j)).pull = (xs[j]?, .items (xs.drop (j + 1))) := by
  rw [← List.head?_drop, ← List.tail_drop]
  cases xs.drop j <;> rfl

/-- Behind the last item the end mark stays in view. -/
theorem Parse.advance_of_none (h : w.feed.pull.1 = none) :
    Parse.advance w = .ok w.current { w with
      current := w.next
      next := ⟨.eof, ⟨w.ending, w.ending⟩⟩
      feed := w.feed.pull.2 } := by
  rw [Parse.advance]
  split <;> rename_i hpull <;> rw [hpull] at h <;> cases h
  rw [hpull]

namespace Window

variable {ts tail tail' xs : List Item} {i j : Nat} {w w' w₁ : Window}

/-- The window stands at the item `i` of a list, and the items behind the next
one are in its feed. -/
structure StandsAt (xs : List Item) (i : Nat) (w : Window) : Prop where
  current : xs[i]? = some (.ok w.current)
  next : ∀ x, xs[i + 1]? = some x → x = .ok w.next
  feed : w.feed = .items (xs.drop (i + 2))

/-- The window stands at a token of the list `ts`, and at most one item behind
the list was taken. -/
structure LeftIn (ts tail : List Item) (w : Window) : Prop where
  current : .ok w.current ∈ ts
  feed : ∃ j ≤ ts.length + 1, w.feed = .items ((ts ++ tail).drop j)

/-- The token in view is the item at the place of the window. -/
theorem StandsAt.item (h : w.StandsAt (ts ++ tail) i) (hi : i < ts.length) :
    ts[i]? = some (.ok w.current) := by
  rw [← List.getElem?_append_left hi]
  exact h.current

theorem StandsAt.nextItem (h : w.StandsAt (ts ++ tail) i) (hi : i + 1 < ts.length) :
    ts[i + 1]? = some (.ok w.next) := by
  have hitem := List.getElem?_eq_getElem hi
  rw [hitem, h.next _ ((List.getElem?_append_left hi).trans hitem)]

/-- A token other than the end mark has one behind it. -/
theorem StandsAt.lt_of_ne (hts : EndsOnce ts) (h : w.StandsAt (ts ++ tail) i) (hi : i < ts.length)
    (heof : w.current.token ≠ .eof) : i + 1 < ts.length :=
  lt_of_le_of_ne hi fun hlast => heof ((hts.eof_iff (h.item hi)).2 hlast)

theorem StandsAt.leftIn (h : w.StandsAt (ts ++ tail) i) (hi : i < ts.length) :
    w.LeftIn ts tail :=
  ⟨List.mem_of_getElem? (h.item hi), i + 2, by omega, h.feed⟩

/-- The item `j` of the list came into view. -/
structure Moved (xs : List Item) (j : Nat) (w w₁ : Window) : Prop where
  current : w₁.current = w.next
  next : ∀ x, xs[j]? = some x → x = .ok w₁.next
  closed : w₁.closedBlock = w.closedBlock
  feed : w₁.feed = .items (xs.drop (j + 1))

/-- Whether the next item of a list comes into view is seen from the item. -/
theorem advance_items (h : w.feed = .items (xs.drop j)) :
    (∃ e, xs[j]? = some (.error e) ∧
        Parse.advance w =
          .error ⟨.lexical e, e.span⟩ { w with feed := .items (xs.drop (j + 1)) }) ∨
      (∀ e, xs[j]? ≠ some (.error e)) ∧
        ∃ w₁, Parse.advance w = .ok w.current w₁ ∧ Moved xs j w w₁ := by
  have hpull : w.feed.pull = (xs[j]?, .items (xs.drop (j + 1))) := by
    rw [h, Feed.pull_drop]
  have hrest : w.feed.pull.2 = .items (xs.drop (j + 1)) := by
    rw [hpull]
  rcases hitem : xs[j]? with - | (e | x)
  · have hnone : w.feed.pull.1 = none := by
      rw [hpull, hitem]
    exact .inr ⟨by simp, _, Parse.advance_of_none hnone, rfl, by simp [hitem], rfl, hrest⟩
  · have hfault : w.feed.pull.1 = some (.error e) := by
      rw [hpull, hitem]
    refine .inl ⟨e, rfl, ?_⟩
    rw [Parse.advance_of_fault hfault, hrest]
  · have htoken : w.feed.pull.1 = some (.ok x) := by
      rw [hpull, hitem]
    refine .inr ⟨by simp, _, Parse.advance_of_token htoken, rfl, fun y hy => ?_, rfl, hrest⟩
    exact (Option.some.inj (hitem.symm.trans hy)).symm

/-- Over the same list, the next item comes into view in both windows, or in
neither. -/
theorem advance_both (htail : StartsClean tail) (htail' : StartsClean tail') (hj : j ≤ ts.length)
    (hw : w.feed = .items ((ts ++ tail).drop j)) (hw' : w'.feed = .items ((ts ++ tail').drop j)) :
    (∃ e, .error e ∈ ts ∧ j < ts.length ∧
        Parse.advance w = .error ⟨.lexical e, e.span⟩
          { w with feed := .items ((ts ++ tail).drop (j + 1)) } ∧
        Parse.advance w' = .error ⟨.lexical e, e.span⟩
          { w' with feed := .items ((ts ++ tail').drop (j + 1)) }) ∨
      ∃ w₁ w₁', Parse.advance w = .ok w.current w₁ ∧ Parse.advance w' = .ok w'.current w₁' ∧
        Moved (ts ++ tail) j w w₁ ∧ Moved (ts ++ tail') j w' w₁' := by
  rcases advance_items hw with ⟨e, he, hfail⟩ | ⟨hno, w₁, hpass, hmoved⟩
  · rw [htail.fault_iff hj] at he
    rcases advance_items hw' with ⟨e', he', hfail'⟩ | ⟨hno', -⟩
    · rw [htail'.fault_iff hj] at he'
      obtain rfl : e = e' := Except.error.inj (Option.some.inj (he.symm.trans he'))
      obtain ⟨hlt, -⟩ := List.getElem?_eq_some_iff.1 he
      exact .inl ⟨e, List.mem_of_getElem? he, hlt, hfail, hfail'⟩
    · exact absurd ((htail'.fault_iff hj e).2 he) (hno' e)
  · rcases advance_items hw' with ⟨e', he', -⟩ | ⟨-, w₁', hpass', hmoved'⟩
    · rw [htail'.fault_iff hj] at he'
      exact absurd ((htail.fault_iff hj e').2 he') (hno e')
    · exact .inr ⟨w₁, w₁', hpass, hpass', hmoved, hmoved'⟩

/-- The window moves on by one item. -/
theorem StandsAt.moved (h : w.StandsAt (ts ++ tail) i) (hi : i + 1 < ts.length)
    (hmoved : Moved (ts ++ tail) (i + 2) w w₁) : w₁.StandsAt (ts ++ tail) (i + 1) where
  current := by
    rw [hmoved.current, List.getElem?_append_left hi]
    exact h.nextItem hi
  next := hmoved.next
  feed := hmoved.feed

/-- Two items came into view, and the window stands at the first. -/
theorem standsAt_zero (hxs : 0 < xs.length) (hmoved : Moved xs 0 w w₁)
    (hmoved' : Moved xs 1 w₁ w') : w'.StandsAt xs 0 where
  current := by
    have hitem := List.getElem?_eq_getElem hxs
    rw [hmoved'.current, hitem, hmoved.next _ hitem]
  next := hmoved'.next
  feed := hmoved'.feed

/-- The windows stand at the same item of the list `ts`, with `k` items up to its
end. -/
structure StandSame (ts tail tail' : List Item) (k : Nat) (w w' : Window) : Prop where
  closed : w'.closedBlock = w.closedBlock
  stands : ∃ i < ts.length, i + k = ts.length ∧ w.StandsAt (ts ++ tail) i ∧
    w'.StandsAt (ts ++ tail') i

namespace StandSame

variable {k : Nat} (h : w.StandSame ts tail tail' k w')

include h

theorem leftIn : w.LeftIn ts tail ∧ w'.LeftIn ts tail' := by
  obtain ⟨i, hi, -, hw, hw'⟩ := h.stands
  exact ⟨hw.leftIn hi, hw'.leftIn hi⟩

/-- Both windows stand at the same item of the list. -/
theorem current_eq : w'.current = w.current := by
  obtain ⟨i, hi, -, hw, hw'⟩ := h.stands
  exact Except.ok.inj (Option.some.inj ((hw'.item hi).symm.trans (hw.item hi)))

theorem next_eq (hts : EndsOnce ts) (heof : w.current.token ≠ .eof) :
    w'.next.token = w.next.token := by
  obtain ⟨i, hi, -, hw, hw'⟩ := h.stands
  have hlt := hw.lt_of_ne hts hi heof
  rw [Except.ok.inj (Option.some.inj ((hw'.nextItem hlt).symm.trans (hw.nextItem hlt)))]

theorem le_bound : k ≤ w.feed.bound + 3 ∧ k ≤ w'.feed.bound + 3 := by
  obtain ⟨i, -, hk, hw, hw'⟩ := h.stands
  rw [hw.feed, hw'.feed, Feed.bound, Feed.bound, List.length_drop, List.length_drop,
    List.length_append, List.length_append]
  omega

theorem setClosed (closed : Bool) :
    StandSame ts tail tail' k { w with closedBlock := closed }
      { w' with closedBlock := closed } := by
  obtain ⟨i, hi, hk, hw, hw'⟩ := h.stands
  exact ⟨rfl, i, hi, hk, ⟨hw.current, hw.next, hw.feed⟩, ⟨hw'.current, hw'.next, hw'.feed⟩⟩

/-- Both windows move on by one item, or a fault of the list is found. -/
theorem advance (hts : EndsOnce ts) (htail : StartsClean tail) (htail' : StartsClean tail')
    (heof : w.current.token ≠ .eof) :
    (∃ e w₁ w₁', .error e ∈ ts ∧ (w₁.LeftIn ts tail ∧ w₁'.LeftIn ts tail') ∧
        Parse.advance w = .error ⟨.lexical e, e.span⟩ w₁ ∧
        Parse.advance w' = .error ⟨.lexical e, e.span⟩ w₁') ∨
      ∃ j w₁ w₁', j < k ∧ Parse.advance w = .ok w.current w₁ ∧
        Parse.advance w' = .ok w'.current w₁' ∧ w₁.StandSame ts tail tail' j w₁' := by
  obtain ⟨i, hi, hk, hw, hw'⟩ := h.stands
  have hlt := hw.lt_of_ne hts hi heof
  rcases advance_both htail htail' hlt hw.feed hw'.feed with
    ⟨e, he, hj, hfail, hfail'⟩ | ⟨w₁, w₁', hpass, hpass', hmoved, hmoved'⟩
  · -- the fault was taken, and the tokens in view are the same as before
    refine .inl ⟨e, _, _, he, ⟨⟨?_, i + 3, by omega, rfl⟩, ?_, i + 3, by omega, rfl⟩, hfail, hfail'⟩
    · exact List.mem_of_getElem? (hw.item hi)
    · exact List.mem_of_getElem? (hw'.item hi)
  · refine .inr ⟨k - 1, w₁, w₁', by omega, hpass, hpass', ?_, i + 1, hlt, by omega,
      hw.moved hlt hmoved, hw'.moved hlt hmoved'⟩
    rw [hmoved'.closed, hmoved.closed, h.closed]

end StandSame

end Window

/-- Windows over the same list move in step, whatever stands behind it. -/
def Pace.along {ts tail tail' : List Item} (hts : EndsOnce ts) (htail : StartsClean tail)
    (htail' : StartsClean tail') : Pace where
  Exact := True
  Beside := Window.StandSame ts tail tail'
  Left w w' := w.LeftIn ts tail ∧ w'.LeftIn ts tail'
  Fault e := .error e ∈ ts
  Stray := True
  left_of_beside h := h.leftIn
  closed_eq h := h.closed
  current h := h.current_eq ▸ .refl _
  next_eq h heof := h.next_eq hts heof
  le_bound h := h.le_bound
  setClosed h closed := h.setClosed closed
  advance h heof := by
    rcases h.advance hts htail htail' heof with ⟨e, w₁, w₁', hfault⟩ | hpass
    · exact .inl ⟨e, e, w₁, w₁', .refl e, hfault⟩
    · exact .inr hpass

/-! ### Whole programs -/

namespace Parse

variable {α β : Type} {x : Parse α} {f : α → Parse β} {w w₁ : Window}

theorem bind_of_ok {a : α} (h : x w = .ok a w₁) : (x >>= f) w = f a w₁ := by
  show EStateM.bind x f w = _
  rw [EStateM.bind, h]

theorem bind_of_error {e : SyntaxError} (h : x w = .error e w₁) :
    (x >>= f) w = .error e w₁ := by
  show EStateM.bind x f w = _
  rw [EStateM.bind, h]

/-- What an action came to, without the window that it left. -/
def outcome : EStateM.Result SyntaxError Window α → Except SyntaxError α
  | .ok a _ => .ok a
  | .error e _ => .error e

/-- Two tokens come into view, and a program is read. -/
def wholeProgram : Parse Program := do
  discard advance
  discard advance
  withRules Rules.program

/-- The tokens in view come first. -/
theorem wholeProgram_eq : wholeProgram = advance >>= fun _ => advance >>= fun _ =>
    withRules Rules.program := by
  rw [wholeProgram, discard_eq, bind_assoc]
  simp only [pure_bind, bind_assoc]

end Parse

/-- The window before any item came into view. -/
def Window.unopened (feed : Feed) : Window :=
  ⟨⟨.eof, ⟨0, 0⟩⟩, ⟨.eof, ⟨0, 0⟩⟩, false, feed, 0⟩

/-- A feed is parsed by one action, at a window that is not opened yet. -/
theorem parseFeed_eq_outcome (feed : Feed) :
    parseFeed feed = Parse.outcome (Parse.wholeProgram (Window.unopened feed)) := by
  rw [parseFeed, Window.ofFeed_eq, Parse.wholeProgram_eq]
  cases hfirst : Parse.advance (Window.unopened feed) with
  | error e w =>
    rw [Parse.bind_of_error hfirst]
    rw [Window.unopened] at hfirst
    rw [hfirst]
    rfl
  | ok x w =>
    rw [Parse.bind_of_ok hfirst]
    rw [Window.unopened] at hfirst
    rw [hfirst]
    dsimp only
    cases hsecond : Parse.advance w with
    | error e w₁ =>
      rw [Parse.bind_of_error hsecond]
      rfl
    | ok x₁ w₁ =>
      rw [Parse.bind_of_ok hsecond]
      dsimp only
      show _ = Parse.outcome ((Parse.withRules Rules.program).run w₁)
      cases (Parse.withRules Rules.program).run w₁ <;> rfl

section Main

variable {ts tail tail' : List Item} (hts : EndsOnce ts) (htail : StartsClean tail)
include hts htail

/-- A phrase with at least one token moves the window on. -/
theorem phrase_along {p : Phrase} (hp : p.passes = true) {i : Nat} (hi : i < ts.length)
    (hw : w.StandsAt (ts ++ tail) i) :
    (∀ a w', Parse.phrase p w = .ok a w' →
        ∃ j, i < j ∧ j < ts.length ∧ w'.StandsAt (ts ++ tail) j) ∧
      ∀ e w', Parse.phrase p w = .error e w' → e.cause ≠ .outOfFuel ∧ w'.LeftIn ts tail := by
  have hbeside : (Pace.along hts htail htail).Beside (ts.length - i) w w :=
    ⟨rfl, i, hi, by omega, hw, hw⟩
  have hagree := (agree_fuel hbeside).passing hbeside (Nat.le_refl _) p hp
  have hrun : Parse.phrase p w = parse w.fuel p w := rfl
  rw [hrun]
  rcases Parse.Alike.cases hagree with
    ⟨a, -, w₁, w₁', k, hdone, -, -, hk, hw₁⟩ | ⟨e, -, w₁, w₁', hfail, -, -, he, hleft⟩
  · rw [hdone]
    refine ⟨?_, by simp⟩
    rintro _ _ ⟨⟩
    obtain ⟨j, hj, hrest, hat, -⟩ := hw₁.stands
    exact ⟨j, by omega, hj, hat⟩
  · rw [hfail]
    refine ⟨by simp, ?_⟩
    rintro _ _ ⟨⟩
    exact ⟨he.unfolded, hleft.1⟩

/-- The first two items come into view, whatever stands behind the list, or the
same fault is found at them. -/
theorem opened_along (htail' : StartsClean tail') :
    (∃ e w w',
        Parse.wholeProgram (.unopened (.items (ts ++ tail))) = .error ⟨.lexical e, e.span⟩ w ∧
        Parse.wholeProgram (.unopened (.items (ts ++ tail'))) = .error ⟨.lexical e, e.span⟩ w' ∧
        ∃ j ≤ ts.length + 1, w.feed = .items ((ts ++ tail).drop j)) ∨
      ∃ w w',
        Parse.wholeProgram (.unopened (.items (ts ++ tail))) =
          (Parse.withRules Rules.program).run w ∧
        Parse.wholeProgram (.unopened (.items (ts ++ tail'))) =
          (Parse.withRules Rules.program).run w' ∧
        (Pace.along hts htail htail').Beside ts.length w w' := by
  have hpos := hts.length_pos
  have hlength (us : List Item) : 0 < (ts ++ us).length := by
    rw [List.length_append]
    omega
  have hfeed (us : List Item) :
      (Window.unopened (.items (ts ++ us))).feed = .items ((ts ++ us).drop 0) := rfl
  rw [Parse.wholeProgram_eq]
  rcases Window.advance_both htail htail' (Nat.zero_le _) (hfeed tail) (hfeed tail') with
    ⟨e, -, -, hfail, hfail'⟩ | ⟨w₁, w₁', hpass, hpass', hmoved, hmoved'⟩
  · rw [Parse.bind_of_error hfail, Parse.bind_of_error hfail']
    exact .inl ⟨e, _, _, rfl, rfl, 1, by omega, rfl⟩
  rw [Parse.bind_of_ok hpass, Parse.bind_of_ok hpass']
  rcases Window.advance_both htail htail' hpos hmoved.feed hmoved'.feed with
    ⟨e, -, -, hfail, hfail'⟩ | ⟨w₂, w₂', hpass₂, hpass₂', hmoved₂, hmoved₂'⟩
  · rw [Parse.bind_of_error hfail, Parse.bind_of_error hfail']
    exact .inl ⟨e, _, _, rfl, rfl, 2, by omega, rfl⟩
  rw [Parse.bind_of_ok hpass₂, Parse.bind_of_ok hpass₂']
  refine .inr ⟨w₂, w₂', rfl, rfl, ?_, 0, hpos, Nat.zero_add _,
    Window.standsAt_zero (hlength tail) hmoved hmoved₂,
    Window.standsAt_zero (hlength tail') hmoved' hmoved₂'⟩
  rw [hmoved₂'.closed, hmoved'.closed, hmoved₂.closed, hmoved.closed]
  rfl

/-- A program is read from the list alone, and one item more is taken at most. -/
theorem wholeProgram_along (htail' : StartsClean tail') :
    Parse.outcome (Parse.wholeProgram (.unopened (.items (ts ++ tail')))) =
        Parse.outcome (Parse.wholeProgram (.unopened (.items (ts ++ tail)))) ∧
      (∀ p w, Parse.wholeProgram (.unopened (.items (ts ++ tail))) = .ok p w →
        w.current.token = .eof ∧ w.StandsAt (ts ++ tail) (ts.length - 1)) ∧
      ∀ e w, Parse.wholeProgram (.unopened (.items (ts ++ tail))) = .error e w →
        e.cause ≠ .outOfFuel ∧ ∃ j ≤ ts.length + 1, w.feed = .items ((ts ++ tail).drop j) := by
  rcases opened_along hts htail htail' with
    ⟨e, w, w', hfail, hfail', hfeed⟩ | ⟨w, w', hopen, hopen', hbeside⟩
  · rw [hfail, hfail']
    refine ⟨rfl, by simp, ?_⟩
    rintro _ _ ⟨⟩
    exact ⟨by simp, hfeed⟩
  rw [hopen, hopen']
  rcases Parse.Alike.cases (agree_withRules trivial hbeside) with
    ⟨p, p', w₁, w₁', k, hdone, hdone', hp, -, hw₁⟩ |
    ⟨e, e', w₁, w₁', hfail, hfail', hsame, he, hleft⟩
  · rw [hdone, hdone', hp.1 trivial]
    refine ⟨rfl, ?_, by simp⟩
    rintro _ _ ⟨⟩
    obtain ⟨i, hi, -, hat, -⟩ := hw₁.stands
    have heof : w₁.current.token = .eof := current_of_program hdone
    -- the end mark is the last item, so the window stands there
    have hlast := (hts.eof_iff (hat.item hi)).1 heof
    rw [show ts.length - 1 = i by omega]
    exact ⟨heof, hat⟩
  · rw [hfail, hfail', hsame.1 trivial]
    refine ⟨rfl, by simp, ?_⟩
    rintro _ _ ⟨⟩
    exact ⟨he.unfolded, hleft.1.feed⟩

end Main

/-- **Parsing goes on to the end mark, and not beyond.**  A list that ends once is
parsed with any items behind it, of which the first is no fault.  At each item of
the list, a statement or an expression that is read moves the window on, to an item
of the list again; one that cannot be read leaves it at an item of the list.  The
whole program is the same as for the list alone.  When it was read, the window stands
at the end mark; and in any case no more was taken from the feed than the list and one
item behind it. -/
theorem parsing_stays_within_list {ts tail : List Item} (hts : EndsOnce ts)
    (htail : StartsClean tail) :
    (∀ p : Phrase, (p = .statement ∨ ∃ above, p = .expression above) → ∀ i w, i < ts.length →
      w.StandsAt (ts ++ tail) i →
        (∀ a w', Parse.phrase p w = .ok a w' →
          ∃ j, i < j ∧ j < ts.length ∧ w'.StandsAt (ts ++ tail) j) ∧
        ∀ e w', Parse.phrase p w = .error e w' → e.cause ≠ .outOfFuel ∧ w'.LeftIn ts tail) ∧
    parseFeed (.items (ts ++ tail)) = parseFeed (.items ts) ∧
    parseFeed (.items (ts ++ tail)) =
      Parse.outcome (Parse.wholeProgram (.unopened (.items (ts ++ tail)))) ∧
    (∀ p w, Parse.wholeProgram (.unopened (.items (ts ++ tail))) = .ok p w →
      w.current.token = .eof ∧ w.StandsAt (ts ++ tail) (ts.length - 1)) ∧
    ∀ e w, Parse.wholeProgram (.unopened (.items (ts ++ tail))) = .error e w →
      e.cause ≠ .outOfFuel ∧ ∃ j ≤ ts.length + 1, w.feed = .items ((ts ++ tail).drop j) := by
  refine ⟨fun p hp i w hi hw => phrase_along hts htail ?_ hi hw, ?_, parseFeed_eq_outcome _,
    (wholeProgram_along hts htail htail).2⟩
  · rcases hp with rfl | ⟨above, rfl⟩ <;> rfl
  · have hnil : StartsClean [] := by simp [StartsClean]
    have hsame := (wholeProgram_along hts hnil htail).1
    rw [List.append_nil] at hsame
    rw [parseFeed_eq_outcome, parseFeed_eq_outcome, hsame]

/-- A list with a token and a fault behind it, and one with a fault in it. -/
theorem parsing_stays_within_list_assign :
    (EndsOnce [.ok ⟨.ident "x", ⟨0, 1⟩⟩, .ok ⟨.symbol .assign, ⟨2, 3⟩⟩, .ok ⟨.int 1, ⟨4, 5⟩⟩,
        .ok ⟨.newline, ⟨5, 5⟩⟩, .ok ⟨.eof, ⟨5, 5⟩⟩] ∧
      ∃ w, Parse.wholeProgram (.unopened (.items [.ok ⟨.ident "x", ⟨0, 1⟩⟩,
          .ok ⟨.symbol .assign, ⟨2, 3⟩⟩, .ok ⟨.int 1, ⟨4, 5⟩⟩, .ok ⟨.newline, ⟨5, 5⟩⟩,
          .ok ⟨.eof, ⟨5, 5⟩⟩, .ok ⟨.int 2, ⟨5, 6⟩⟩, .error ⟨.unterminatedString, ⟨6, 7⟩⟩])) =
        .ok ⟨[.assign (.ident ⟨"x", ⟨0, 1⟩⟩) (.int 1 ⟨4, 5⟩) ⟨0, 5⟩], ⟨0, 5⟩⟩ w ∧
        w.current.token = .eof ∧ w.feed = .items [.error ⟨.unterminatedString, ⟨6, 7⟩⟩]) ∧
    EndsOnce [.ok ⟨.ident "x", ⟨0, 1⟩⟩, .ok ⟨.newline, ⟨1, 1⟩⟩,
        .error ⟨.unterminatedString, ⟨2, 3⟩⟩, .ok ⟨.eof, ⟨3, 3⟩⟩] ∧
      parseFeed (.items [.ok ⟨.ident "x", ⟨0, 1⟩⟩, .ok ⟨.newline, ⟨1, 1⟩⟩,
          .error ⟨.unterminatedString, ⟨2, 3⟩⟩, .ok ⟨.eof, ⟨3, 3⟩⟩, .ok ⟨.int 2, ⟨5, 6⟩⟩]) =
        .error ⟨.lexical ⟨.unterminatedString, ⟨2, 3⟩⟩, ⟨2, 3⟩⟩ := by
  have hgood : EndsOnce [.ok ⟨.ident "x", ⟨0, 1⟩⟩, .ok ⟨.symbol .assign, ⟨2, 3⟩⟩,
      .ok ⟨.int 1, ⟨4, 5⟩⟩, .ok ⟨.newline, ⟨5, 5⟩⟩, .ok ⟨.eof, ⟨5, 5⟩⟩] :=
    ⟨[.ok ⟨.ident "x", ⟨0, 1⟩⟩, .ok ⟨.symbol .assign, ⟨2, 3⟩⟩, .ok ⟨.int 1, ⟨4, 5⟩⟩,
      .ok ⟨.newline, ⟨5, 5⟩⟩], ⟨.eof, ⟨5, 5⟩⟩, rfl, rfl, by simp⟩
  have hfault : EndsOnce [.ok ⟨.ident "x", ⟨0, 1⟩⟩, .ok ⟨.newline, ⟨1, 1⟩⟩,
      .error ⟨.unterminatedString, ⟨2, 3⟩⟩, .ok ⟨.eof, ⟨3, 3⟩⟩] :=
    ⟨[.ok ⟨.ident "x", ⟨0, 1⟩⟩, .ok ⟨.newline, ⟨1, 1⟩⟩, .error ⟨.unterminatedString, ⟨2, 3⟩⟩],
      ⟨.eof, ⟨3, 3⟩⟩, rfl, rfl, by simp⟩
  have htail : StartsClean [.ok ⟨.int 2, ⟨5, 6⟩⟩, .error ⟨.unterminatedString, ⟨6, 7⟩⟩] := by
    simp [StartsClean]
  have htail' : StartsClean [.ok ⟨.int 2, ⟨5, 6⟩⟩] := by
    simp [StartsClean]
  refine ⟨⟨hgood, _, rfl, ?_⟩, hfault, ?_⟩
  · obtain ⟨heof, hat⟩ := (parsing_stays_within_list hgood htail).2.2.2.1 _ _ rfl
    exact ⟨heof, hat.feed⟩
  · exact (parsing_stays_within_list hfault htail').2.1.trans (by decide +kernel)

end Dncl
