/-
Dncl/Proofs/Facing.lean

Windows that face the same items.

A feed *brings* items (`Feed.Brings`): tokens up to the end mark, or up to the
first fault.  A window *faces* items (`Window.Faces`): its two tokens, and what
its feed brings.  What comes behind the end mark is not among them: a text that
is scanned repeats the end mark at its end, a list at the greatest offset so far.

Design.  Windows move *in step* (`Pace`) if the same tokens come into view in both.
Windows that face the same items do (`Pace.facing`).  `Parse.Agree` says of two
actions at two windows in step that they come to the same result, and leave the
windows beside each other, or that they fail in the same way, and with reason
(`SyntaxError.Genuine`).  It counts the items, so that the number of unfoldings of
the grammar can be weighed against it.  There is one rule for each basic action, and
`Agree.bind` puts two together.  No rule passes the end mark; that is all that is
needed of the grammar.

Places may be compared or not (`SameUpTo`).  If they are not, the items may stand at
other places in the one window than in the other.
-/
import Mathlib.Data.List.Forall2
import Dncl.Proofs.Spending

namespace Dncl

variable {e : LexError}

/-- A token with its place, or a fault. -/
abbrev Item : Type :=
  Except LexError Lexeme

/-! ### Up to places -/

/-- The cause without places. -/
def SyntaxCause.erase : SyntaxCause → SyntaxCause
  | .lexical fault => .lexical ⟨fault.cause, default⟩
  | cause => cause

/-- The failure without places. -/
def SyntaxError.erase (e : SyntaxError) : SyntaxError :=
  ⟨e.cause.erase, default⟩

/-- The same where `exact` holds, and else as far as `view` shows. -/
@[grind =]
def SameUpTo {α γ : Type} (exact : Prop) (view : α → γ) (a a' : α) : Prop :=
  (exact → a' = a) ∧ view a' = view a

theorem SameUpTo.refl {α γ : Type} {exact : Prop} {view : α → γ} (a : α) :
    SameUpTo exact view a a :=
  ⟨fun _ => rfl, rfl⟩

theorem SameUpTo.symm {α γ : Type} {exact : Prop} {view : α → γ} {a a' : α}
    (h : SameUpTo exact view a a') : SameUpTo exact view a' a :=
  ⟨fun hexact => (h.1 hexact).symm, h.2.symm⟩

/-- The same token, or faults with the same cause. -/
inductive Item.Matches (exact : Prop) : Item → Item → Prop
  | token {x x' : Lexeme} : SameUpTo exact Lexeme.token x x' → Matches exact (.ok x) (.ok x')
  | fault {e e' : LexError} : SameUpTo exact LexError.cause e e' →
      Matches exact (.error e) (.error e')

theorem Item.Matches.refl {exact : Prop} : ∀ x : Item, x.Matches exact x
  | .ok x => .token (.refl x)
  | .error e => .fault (.refl e)

theorem Item.Matches.symm {exact : Prop} {x x' : Item} (h : x.Matches exact x') :
    x'.Matches exact x := by
  cases h with
  | token hsame => exact .token hsame.symm
  | fault hsame => exact .fault hsame.symm

/-- Items that match, one by one. -/
abbrev MatchAll (exact : Prop) : List Item → List Item → Prop :=
  List.Forall₂ (Item.Matches exact)

namespace MatchAll

variable {exact : Prop} {xs xs' : List Item}

theorem refl (xs : List Item) : MatchAll exact xs xs :=
  List.forall₂_same.2 fun x _ => .refl x

theorem symm (h : MatchAll exact xs xs') : MatchAll exact xs' xs :=
  List.Forall₂.flip (h.imp fun _ _ => Item.Matches.symm)

/-- At the place of an item stands one that matches. -/
theorem getElem? {i : Nat} {x : Item} (h : MatchAll exact xs xs') (hx : xs[i]? = some x) :
    ∃ x', xs'[i]? = some x' ∧ x.Matches exact x' := by
  induction h generalizing i with
  | nil => cases hx
  | cons hitem _ ih =>
    cases i with
    | zero =>
      cases hx
      exact ⟨_, rfl, hitem⟩
    | succ i => exact ih hx

/-- Where a fault is, there is one with the same cause. -/
theorem fault {i : Nat} (h : MatchAll exact xs xs') (he : xs[i]? = some (.error e)) :
    ∃ e', xs'[i]? = some (.error e') ∧ SameUpTo exact LexError.cause e e' := by
  obtain ⟨_, hx, hsame⟩ := h.getElem? he
  cases hsame with
  | fault hsame => exact ⟨_, hx, hsame⟩

/-- A fault among the first items is matched by one among those of the other. -/
theorem fault_mem {n : Nat} (h : MatchAll exact xs xs') (he : .error e ∈ xs.take n) :
    ∃ e', .error e' ∈ xs'.take n ∧ SameUpTo exact LexError.cause e e' := by
  obtain ⟨i, hi⟩ := List.mem_iff_getElem?.1 he
  obtain ⟨e', he', hsame⟩ := fault (List.forall₂_take n h) hi
  exact ⟨e', List.mem_of_getElem? he', hsame⟩

end MatchAll

/-! ### What a feed brings -/

/-- The feed brings tokens up to the end mark, and the end mark again if it is
asked once more, or tokens up to a fault. -/
inductive Feed.Brings : Feed → List Item → Prop
  | fault {f : Feed} {e : LexError} : f.pull.1 = some (.error e) → Brings f [.error e]
  | last {f : Feed} {x : Lexeme} : f.pull.1 = some (.ok x) → x.token = .eof →
      f.pull.2.item = .ok .eof → Brings f [.ok x]
  | token {f : Feed} {x : Lexeme} {xs : List Item} : f.pull.1 = some (.ok x) → x.token ≠ .eof →
      Brings f.pull.2 xs → Brings f (.ok x :: xs)

namespace Feed.Brings

variable {f : Feed} {xs : List Item}

/-- A list brings its own items. -/
theorem items (h : f.Brings xs) : (Feed.items xs).Brings xs := by
  induction h with
  | fault _ => exact .fault rfl
  | last _ hx _ => exact .last rfl hx rfl
  | token _ hx _ ih => exact .token rfl hx ih

/-- There is one fault at most. -/
theorem fault_unique {e' : LexError} (h : f.Brings xs) (he : .error e ∈ xs) (he' : .error e' ∈ xs) :
    e' = e := by
  induction h with
  | fault _ =>
    rw [Except.error.inj (List.mem_singleton.1 he), Except.error.inj (List.mem_singleton.1 he')]
  | last _ _ _ => cases List.mem_singleton.1 he
  | token _ _ _ ih =>
    exact ih ((List.mem_cons.1 he).resolve_left (by simp))
      ((List.mem_cons.1 he').resolve_left (by simp))

/-- There is one item more than tokens before the end mark, at most. -/
theorem length_le (h : f.Brings xs) : xs.length ≤ f.bound + 1 := by
  induction h with
  | fault _ => exact Nat.le_add_left 1 _
  | last _ _ _ => exact Nat.le_add_left 1 _
  | @token f x xs hpull hx _ ih =>
    have hitem : f.item = .ok x.token := by
      rw [Feed.item, hpull]
    have hlt := Feed.bound_pull_lt hitem hx
    rw [List.length_cons]
    omega

end Feed.Brings

namespace Scanner

variable {s t : Scanner} {x : Lexeme}

theorem yields_of_fault (h : s.next = (.error e, t)) : s.yields = [.error e] := by
  rw [yields]
  split <;> rename_i heq <;> rw [h] at heq <;> cases heq
  rfl

theorem yields_of_eof (h : s.next = (.ok x, t)) (hx : x.token = .eof) : s.yields = [.ok x] := by
  rw [yields]
  split <;> rename_i heq <;> rw [h] at heq <;> cases heq
  exact dif_pos hx

/-- A scanner yields its next token, and then what it yields behind it. -/
theorem yields_of_next (h : s.next = (.ok x, t)) (hx : x.token ≠ .eof) :
    s.yields = .ok x :: t.yields := by
  rw [yields]
  split <;> rename_i heq <;> rw [h] at heq <;> cases heq
  exact dif_neg hx

/-- A text brings what is yielded up to the end mark or the first fault. -/
theorem brings_yields {ts : List Token} {rest : Stream} (hover : rest.IsOver)
    (h : s.stream = .prepend ts rest) (hts : .eof ∉ ts) : (Feed.text s).Brings s.yields := by
  induction ts generalizing s with
  | nil =>
    cases hnext : s.next with
    | mk result t =>
      have hpull : (Feed.text s).pull = (some result, .text t) := by
        rw [Feed.pull, hnext]
      cases result with
      | error e =>
        rw [yields_of_fault hnext]
        exact .fault (congrArg Prod.fst hpull)
      | ok x =>
        have hitem : s.stream 0 = .ok x.token := by
          show (Feed.text s).item = _
          rw [Feed.item, hpull]
        rw [h] at hitem
        rcases hover with rfl | ⟨e, he⟩
        · have hx : x.token = .eof := (Except.ok.inj hitem).symm
          rw [yields_of_eof hnext hx]
          refine .last (congrArg Prod.fst hpull) hx ?_
          -- the end mark comes again
          have hagain : s.stream 1 = .ok .eof := by
            rw [h]
            rfl
          exact hagain
        · cases he.symm.trans hitem
  | cons u ts ih =>
    obtain ⟨x, t, hnext, rfl, hrest⟩ := next_of_stream (congrFun h 0)
    have hx : x.token ≠ .eof := fun heq => hts (heq ▸ List.mem_cons_self)
    have hpull : (Feed.text s).pull = (some (.ok x), .text t) := by
      rw [Feed.pull, hnext]
    rw [yields_of_next hnext hx]
    refine .token (congrArg Prod.fst hpull) hx ?_
    rw [hpull]
    exact ih (by rw [hrest, h]; rfl) fun hmem => hts (List.mem_cons_of_mem _ hmem)

/-- The tokens of a text are what it yields. -/
theorem yields_of_tokens {xs : List Lexeme} (h : s.tokens = .ok xs) :
    s.yields = xs.map .ok := by
  fun_induction tokens s generalizing xs with
  | case1 => cases h
  | case2 s x t hnext hx =>
    cases h
    exact yields_of_eof hnext hx
  | case3 => cases h
  | case4 s x t hnext hx later hlater ih =>
    cases h
    rw [yields_of_next hnext hx, ih hlater]
    rfl

/-- The fault of a text is yielded. -/
theorem mem_yields_of_tokens (h : s.tokens = .error e) : .error e ∈ s.yields := by
  fun_induction tokens s with
  | case1 s f t hnext =>
    cases h
    rw [yields_of_fault hnext]
    exact List.mem_singleton_self _
  | case2 => cases h
  | case3 s x t hnext hx f hf ih =>
    cases h
    rw [yields_of_next hnext hx]
    exact List.mem_cons_of_mem _ (ih hf)
  | case4 => cases h

end Scanner

/-! ### What a window faces -/

namespace Parse

variable {w : Window}

theorem advance_of_token {x : Lexeme} (h : w.feed.pull.1 = some (.ok x)) :
    advance w = .ok w.current { w with
      current := w.next
      next := x
      feed := w.feed.pull.2
      ending := max w.ending x.span.stop } := by
  rw [advance]
  split <;> rename_i hpull <;> rw [hpull] at h <;> cases h
  rw [hpull]

/-- A fault of the feed is what passing a token fails with. -/
theorem advance_of_fault (h : w.feed.pull.1 = some (.error e)) :
    advance w = .error ⟨.lexical e, e.span⟩ { w with feed := w.feed.pull.2 } := by
  rw [advance]
  split <;> rename_i hpull <;> rw [hpull] at h <;> cases h
  rw [hpull]

end Parse

/-- The items that are in view and that come into view.  The second token is not
among them if the first is the end mark. -/
inductive Window.Faces (w : Window) : List Item → Prop
  | last : w.current.token = .eof → w.next.token = .eof → Faces w [.ok w.current]
  | nearlyLast : w.current.token ≠ .eof → w.next.token = .eof → w.feed.item = .ok .eof →
      Faces w [.ok w.current, .ok w.next]
  | more {xs : List Item} : w.current.token ≠ .eof → w.next.token ≠ .eof → w.feed.Brings xs →
      Faces w (.ok w.current :: .ok w.next :: xs)

namespace Window.Faces

variable {w w' : Window} {xs : List Item}

theorem head_eq (h : w.Faces xs) : xs[0]? = some (.ok w.current) := by
  cases h <;> rfl

/-- The second token is the second item, and the end mark if there is none. -/
theorem next_eq (h : w.Faces xs) :
    xs[1]? = some (.ok w.next) ∨ xs[1]? = none ∧ w.next.token = .eof := by
  cases h with
  | last _ hnext => exact .inr ⟨rfl, hnext⟩
  | nearlyLast | more => exact .inl rfl

theorem length_pos (h : w.Faces xs) : 0 < xs.length := by
  cases h <;> exact Nat.succ_pos _

theorem length_le (h : w.Faces xs) : xs.length ≤ w.feed.bound + 3 := by
  cases h with
  | last => exact Nat.le_add_left 1 _
  | nearlyLast => exact Nat.le_add_left 2 _
  | more _ _ hbrings => exact Nat.add_le_add_right hbrings.length_le 2

/-- The end mark comes into view behind the end mark. -/
theorem advance_last (hnext : w.next.token = .eof) (hitem : w.feed.item = .ok .eof) :
    ∃ w₁, Parse.advance w = .ok w.current w₁ ∧ w₁.closedBlock = w.closedBlock ∧
      w₁.Faces [.ok w.next] := by
  rw [Parse.advance]
  rw [Feed.item] at hitem
  split <;> rename_i hpull <;> rw [hpull] at hitem
  · exact ⟨_, rfl, rfl, .last hnext (Except.ok.inj hitem)⟩
  · cases hitem
  · exact ⟨_, rfl, rfl, .last hnext rfl⟩

/-- What happens when the first item of a feed comes into view is seen from the
item. -/
theorem advance_brings (hnext : w.next.token ≠ .eof) (h : w.feed.Brings xs) :
    (∃ e w₁, xs.head? = some (.error e) ∧ Parse.advance w = .error ⟨.lexical e, e.span⟩ w₁) ∨
      (∀ e, xs.head? ≠ some (.error e)) ∧ ∃ w₁, Parse.advance w = .ok w.current w₁ ∧
        w₁.closedBlock = w.closedBlock ∧ w₁.Faces (.ok w.next :: xs) := by
  cases h with
  | fault hpull => exact .inl ⟨_, _, rfl, Parse.advance_of_fault hpull⟩
  | last hpull hx hitem =>
    exact .inr ⟨by simp, _, Parse.advance_of_token hpull, rfl, .nearlyLast hnext hx hitem⟩
  | token hpull hx hrest =>
    exact .inr ⟨by simp, _, Parse.advance_of_token hpull, rfl, .more hnext hx hrest⟩

/-- What happens when a token is passed is seen from the items: the third one is a
fault, or the window faces the others. -/
theorem advance (h : w.Faces xs) (heof : w.current.token ≠ .eof) :
    (∃ e w₁, xs[2]? = some (.error e) ∧ Parse.advance w = .error ⟨.lexical e, e.span⟩ w₁) ∨
      (∀ e, xs[2]? ≠ some (.error e)) ∧ ∃ w₁, Parse.advance w = .ok w.current w₁ ∧
        w₁.closedBlock = w.closedBlock ∧ w₁.Faces xs.tail := by
  cases h with
  | last hlast => exact absurd hlast heof
  | nearlyLast _ hnext hitem => exact .inr ⟨by simp, advance_last hnext hitem⟩
  | @more xs _ hnext hbrings =>
    have hthird : (.ok w.current :: .ok w.next :: xs : List Item)[2]? = xs.head? :=
      List.head?_eq_getElem?.symm
    rw [hthird]
    exact advance_brings hnext hbrings

theorem setClosed (h : w.Faces xs) (closed : Bool) :
    ({ w with closedBlock := closed } : Window).Faces xs := by
  cases h with
  | last hcurrent hnext => exact .last hcurrent hnext
  | nearlyLast hcurrent hnext hitem => exact .nearlyLast hcurrent hnext hitem
  | more hcurrent hnext hbrings => exact .more hcurrent hnext hbrings

end Window.Faces

/-- A window is opened by passing two tokens that are none. -/
theorem Window.ofFeed_eq (feed : Feed) :
    Window.ofFeed feed =
      match Parse.advance ⟨⟨.eof, ⟨0, 0⟩⟩, ⟨.eof, ⟨0, 0⟩⟩, false, feed, 0⟩ with
      | .error e _ => .error e
      | .ok _ w =>
        match Parse.advance w with
        | .error e _ => .error e
        | .ok _ w => .ok w := by
  simp only [Window.ofFeed, Parse.discard_eq, bind_assoc, pure_bind]
  simp only [EStateM.run, bind, EStateM.bind]
  cases Parse.advance ⟨⟨.eof, ⟨0, 0⟩⟩, ⟨.eof, ⟨0, 0⟩⟩, false, feed, 0⟩ with
  | error e w => rfl
  | ok x w =>
    dsimp only
    cases Parse.advance w <;> rfl

/-- Whether a window can be made of a feed is seen from its first two items; and then
it faces all of them. -/
theorem Window.ofFeed_brings {f : Feed} {xs : List Item} (h : f.Brings xs) :
    (∃ e, .error e ∈ xs.take 2 ∧ Window.ofFeed f = .error ⟨.lexical e, e.span⟩) ∨
      (∀ e, .error e ∉ xs.take 2) ∧
        ∃ w, Window.ofFeed f = .ok w ∧ w.closedBlock = false ∧ w.Faces xs := by
  rw [ofFeed_eq]
  cases h with
  | fault hpull =>
    rw [Parse.advance_of_fault hpull]
    exact .inl ⟨_, by simp, rfl⟩
  | @last _ x hpull hx hitem =>
    rw [Parse.advance_of_token hpull]
    dsimp only
    obtain ⟨w, hpass, hclosed, hw⟩ := Faces.advance_last
      (w := ⟨⟨.eof, ⟨0, 0⟩⟩, x, false, f.pull.2, max 0 x.span.stop⟩) hx hitem
    rw [hpass]
    exact .inr ⟨by simp, w, rfl, hclosed, hw⟩
  | @token _ x xs hpull hx hrest =>
    rw [Parse.advance_of_token hpull]
    dsimp only
    rcases Faces.advance_brings
      (w := ⟨⟨.eof, ⟨0, 0⟩⟩, x, false, f.pull.2, max 0 x.span.stop⟩) hx hrest with
      ⟨e, w, hfirst, hfail⟩ | ⟨hfirst, w, hpass, hclosed, hw⟩
    · rw [hfail]
      exact .inl ⟨e, by simp [List.take_one, hfirst], rfl⟩
    · rw [hpass]
      exact .inr ⟨by simpa [List.take_one] using hfirst, w, rfl, hclosed, hw⟩

/-- The windows face `k` items that match, and all faults among these satisfy `P`. -/
structure Window.FaceSame (exact : Prop) (P : LexError → Prop) (k : Nat) (w w' : Window) :
    Prop where
  closed : w'.closedBlock = w.closedBlock
  faces : ∃ xs xs', w.Faces xs ∧ w'.Faces xs' ∧ MatchAll exact xs xs' ∧ xs.length = k ∧
    ∀ e, .error e ∈ xs → P e

namespace Window.FaceSame

variable {exact : Prop} {P : LexError → Prop} {k : Nat} {w w' : Window}

theorem current (h : FaceSame exact P k w w') :
    SameUpTo exact Lexeme.token w.current w'.current := by
  obtain ⟨xs, xs', hw, hw', hitems, -⟩ := h.faces
  obtain ⟨_, hhead, hsame⟩ := hitems.getElem? hw.head_eq
  cases hw'.head_eq.symm.trans hhead
  cases hsame with
  | token hsame => exact hsame

theorem next_eq (h : FaceSame exact P k w w') : w'.next.token = w.next.token := by
  obtain ⟨xs, xs', hw, hw', hitems, -⟩ := h.faces
  rcases hw.next_eq with hsome | ⟨hnone, heof⟩
  · obtain ⟨_, hsecond, hsame⟩ := hitems.getElem? hsome
    rcases hw'.next_eq with hsome' | ⟨hnone', -⟩
    · cases hsome'.symm.trans hsecond
      cases hsame with
      | token hsame => exact hsame.2
    · cases hnone'.symm.trans hsecond
  · rcases hw'.next_eq with hsome' | ⟨-, heof'⟩
    · obtain ⟨_, hsecond, -⟩ := hitems.symm.getElem? hsome'
      cases hnone.symm.trans hsecond
    · rw [heof, heof']

/-- A token other than the end mark is passed by both, or neither. -/
theorem advance (h : FaceSame exact P k w w') (heof : w.current.token ≠ .eof) :
    (∃ e e' w₁ w₁', SameUpTo exact LexError.cause e e' ∧ P e ∧
        Parse.advance w = .error ⟨.lexical e, e.span⟩ w₁ ∧
        Parse.advance w' = .error ⟨.lexical e', e'.span⟩ w₁') ∨
      ∃ j w₁ w₁', j < k ∧ Parse.advance w = .ok w.current w₁ ∧
        Parse.advance w' = .ok w'.current w₁' ∧ FaceSame exact P j w₁ w₁' := by
  obtain ⟨xs, xs', hw, hw', hitems, rfl, hP⟩ := h.faces
  have heof' : w'.current.token ≠ .eof := h.current.2 ▸ heof
  rcases hw.advance heof with ⟨e, w₁, hthird, hfail⟩ | ⟨hthird, w₁, hpass, hclosed, hw₁⟩
  · obtain ⟨e', he', hsame⟩ := hitems.fault hthird
    rcases hw'.advance heof' with ⟨_, w₁', hthird', hfail'⟩ | ⟨hthird', -⟩
    · cases he'.symm.trans hthird'
      exact .inl ⟨e, e', w₁, w₁', hsame, hP e (List.mem_of_getElem? hthird), hfail, hfail'⟩
    · exact absurd he' (hthird' e')
  · rcases hw'.advance heof' with ⟨e', w₁', hthird', -⟩ | ⟨-, w₁', hpass', hclosed', hw₁'⟩
    · obtain ⟨e, he, -⟩ := hitems.symm.fault hthird'
      exact absurd he (hthird e)
    · refine .inr ⟨xs.tail.length, w₁, w₁', ?_, hpass, hpass', ?_, xs.tail, xs'.tail, hw₁, hw₁',
        ?_, rfl, fun e he => hP e (List.mem_of_mem_tail he)⟩
      · have hpos := hw.length_pos
        rw [List.length_tail]
        omega
      · rw [hclosed', hclosed, h.closed]
      · rw [← List.drop_one, ← List.drop_one]
        exact List.forall₂_drop 1 hitems

/-- What is faced is not more than the feeds may bring. -/
theorem le_bound (h : FaceSame exact P k w w') : k ≤ w.feed.bound + 3 ∧ k ≤ w'.feed.bound + 3 := by
  obtain ⟨xs, xs', hw, hw', hitems, rfl, -⟩ := h.faces
  exact ⟨hw.length_le, hitems.length_eq ▸ hw'.length_le⟩

theorem setClosed (h : FaceSame exact P k w w') (closed : Bool) :
    FaceSame exact P k { w with closedBlock := closed } { w' with closedBlock := closed } := by
  obtain ⟨xs, xs', hw, hw', hxs⟩ := h.faces
  exact ⟨rfl, xs, xs', hw.setClosed closed, hw'.setClosed closed, hxs⟩

end Window.FaceSame

/-! ### Windows in step -/

/-- Pairs of windows that move in step: the same tokens come into view in both, or
faults with the same cause. -/
structure Pace where
  /-- Whether places are compared. -/
  Exact : Prop
  /-- The windows are beside each other, with `k` items before them up to the end
  mark. -/
  Beside : Nat → Window → Window → Prop
  /-- How the windows may be left by a failure. -/
  Left : Window → Window → Prop
  /-- The faults that may come into view. -/
  Fault : LexError → Prop
  /-- Whether a program may end at the end of a block. -/
  Stray : Prop
  left_of_beside : ∀ {k w w'}, Beside k w w' → Left w w'
  closed_eq : ∀ {k w w'}, Beside k w w' → w'.closedBlock = w.closedBlock
  current : ∀ {k w w'}, Beside k w w' → SameUpTo Exact Lexeme.token w.current w'.current
  /-- What stands behind the end mark is not looked at. -/
  next_eq : ∀ {k w w'}, Beside k w w' → w.current.token ≠ .eof → w'.next.token = w.next.token
  le_bound : ∀ {k w w'}, Beside k w w' → k ≤ w.feed.bound + 3 ∧ k ≤ w'.feed.bound + 3
  setClosed : ∀ {k w w'}, Beside k w w' → ∀ closed : Bool,
    Beside k { w with closedBlock := closed } { w' with closedBlock := closed }
  /-- A token other than the end mark is passed by both, or neither. -/
  advance : ∀ {k w w'}, Beside k w w' → w.current.token ≠ .eof →
    (∃ e e' w₁ w₁', SameUpTo Exact LexError.cause e e' ∧ Fault e ∧ Left w₁ w₁' ∧
        Parse.advance w = .error ⟨.lexical e, e.span⟩ w₁ ∧
        Parse.advance w' = .error ⟨.lexical e', e'.span⟩ w₁') ∨
      ∃ j w₁ w₁', j < k ∧ Parse.advance w = .ok w.current w₁ ∧
        Parse.advance w' = .ok w'.current w₁' ∧ Beside j w₁ w₁'

/-- Windows that face items that match move in step. -/
def Pace.facing (exact : Prop) (P : LexError → Prop) : Pace where
  Exact := exact
  Beside := Window.FaceSame exact P
  Left _ _ := True
  Fault := P
  Stray := True
  left_of_beside _ := trivial
  closed_eq h := h.closed
  current h := h.current
  next_eq h _ := h.next_eq
  le_bound h := h.le_bound
  setClosed h closed := h.setClosed closed
  advance h heof := by
    rcases h.advance heof with ⟨e, e', w₁, w₁', hsame, he, hfail⟩ | hpass
    · exact .inl ⟨e, e', w₁, w₁', hsame, he, trivial, hfail⟩
    · exact .inr hpass

/-! ### Actions that agree -/

/-- A failure that lies in the program: the grammar was unfolded often enough, a
fault of scanning satisfies `P` and is told at its place, and a program did not end at
the end of a block, unless it may. -/
structure SyntaxError.Genuine (P : LexError → Prop) (stray : Prop) (e : SyntaxError) : Prop where
  unfolded : e.cause ≠ .outOfFuel
  lexical : ∀ fault, e.cause = .lexical fault → P fault ∧ e.span = fault.span
  stray : ∀ token, e.cause = .unexpected token ["文"] → stray

/-- A fault of the scanner that may occur is genuine. -/
theorem SyntaxError.genuine_lexical {P : LexError → Prop} {stray : Prop} {fault : LexError}
    (h : P fault) : SyntaxError.Genuine P stray ⟨.lexical fault, fault.span⟩ := by
  refine ⟨by simp, ?_, by simp⟩
  rintro _ ⟨⟩
  exact ⟨h, rfl⟩

/-- A token that may be expected: not the end mark, nor spelled as a statement is
called. -/
def Token.IsMark (t : Token) : Prop :=
  t ≠ .eof ∧ t.spelling ≠ "文"

instance (t : Token) : Decidable t.IsMark :=
  inferInstanceAs (Decidable (_ ∧ _))

namespace Parse

variable {α β γ δ : Type}

/-- Results that look the same, with windows that are beside each other and face
less than `m` items, or the same failure. -/
def Alike (P : Pace) (view : α → γ) (m : Nat) :
    EStateM.Result SyntaxError Window α → EStateM.Result SyntaxError Window α → Prop
  | .ok a w, .ok a' w' => SameUpTo P.Exact view a a' ∧ ∃ k < m, P.Beside k w w'
  | .error e w, .error e' w' =>
    SameUpTo P.Exact SyntaxError.erase e e' ∧ e.Genuine P.Fault P.Stray ∧ P.Left w w'
  | _, _ => False

/-- What it is to be alike, with the results named. -/
theorem Alike.cases {P : Pace} {view : α → γ} {m : Nat}
    {r r' : EStateM.Result SyntaxError Window α} (h : Alike P view m r r') :
    (∃ a a' w w' k, r = .ok a w ∧ r' = .ok a' w' ∧ SameUpTo P.Exact view a a' ∧ k < m ∧
        P.Beside k w w') ∨
      ∃ e e' w w', r = .error e w ∧ r' = .error e' w' ∧
        SameUpTo P.Exact SyntaxError.erase e e' ∧ e.Genuine P.Fault P.Stray ∧ P.Left w w' := by
  cases r with
  | ok a w =>
    cases r' with
    | ok a' w' =>
      obtain ⟨ha, k, hk, hw⟩ := h
      exact .inl ⟨a, a', w, w', k, rfl, rfl, ha, hk, hw⟩
    | error e' w' => exact h.elim
  | error e w =>
    cases r' with
    | ok a' w' => exact h.elim
    | error e' w' => exact .inr ⟨e, e', w, w', rfl, rfl, h⟩

/-- The two actions, each at its window, come to the same. -/
def Agree (P : Pace) (view : α → γ) (m : Nat) (w w' : Window) (x x' : Parse α) : Prop :=
  Alike P view m (x w) (x' w')

variable {P : Pace} {view : α → γ} {seen : β → δ} {k m : Nat} {w w' : Window} {x x' : Parse α}
  {f f' : α → Parse β}

theorem agree_pure (hw : P.Beside k w w') (hk : k < m) {a a' : α}
    (ha : SameUpTo P.Exact view a a') : Agree P view m w w' (pure a) (pure a') :=
  ⟨ha, k, hk, hw⟩

/-- Two actions agree if their first parts do, and what comes behind them. -/
theorem Agree.bind {j : Nat} (hx : Agree P view j w w' x x')
    (hf : ∀ a a', SameUpTo P.Exact view a a' → ∀ i w₁ w₁', P.Beside i w₁ w₁' → i < j →
      Agree P seen m w₁ w₁' (f a) (f' a')) :
    Agree P seen m w w' (x >>= f) (x' >>= f') := by
  show Alike P seen m (EStateM.bind x f w) (EStateM.bind x' f' w')
  rw [EStateM.bind, EStateM.bind]
  rcases Alike.cases hx with
    ⟨a, a', w₁, w₁', i, hdone, hdone', ha, hi, hw₁⟩ | ⟨e, e', w₁, w₁', hfail, hfail', he⟩
  · rw [hdone, hdone']
    exact hf a a' ha i w₁ w₁' hw₁ hi
  · rw [hfail, hfail']
    exact he

/-- The result goes into a tree. -/
theorem Agree.map {g g' : α → β} (hx : Agree P view m w w' x x')
    (hg : ∀ a a', SameUpTo P.Exact view a a' → SameUpTo P.Exact seen (g a) (g' a')) :
    Agree P seen m w w' (x >>= fun a => pure (g a)) (x' >>= fun a => pure (g' a)) :=
  hx.bind fun a a' ha _ _ _ hw hi => agree_pure hw hi (hg a a' ha)

/-- A weaker bound on what is faced at the end. -/
theorem Agree.mono {m' : Nat} (hx : Agree P view m w w' x x') (hm : m ≤ m') :
    Agree P view m' w w' x x' := by
  rw [Agree]
  rcases Alike.cases hx with
    ⟨a, a', w₁, w₁', i, hdone, hdone', ha, hi, hw₁⟩ | ⟨e, e', w₁, w₁', hfail, hfail', he⟩
  · rw [hdone, hdone']
    exact ⟨ha, i, Nat.lt_of_lt_of_le hi hm, hw₁⟩
  · rw [hfail, hfail']
    exact he

/-! ### Basic actions -/

variable (hw : P.Beside k w w')

include hw

/-- Both windows are at the same token. -/
theorem agree_current {f f' : Token → Parse β}
    (h : Agree P seen m w w' (f w.current.token) (f' w.current.token)) :
    Agree P seen m w w' (current >>= f) (current >>= f') := by
  show Alike P seen m (f w.current.token w) (f' w'.current.token w')
  rw [(P.current hw).2]
  exact h

/-- Both have the same token next, unless this is the last. -/
theorem agree_peek {f f' : Token → Parse β} (heof : w.current.token ≠ .eof)
    (h : Agree P seen m w w' (f w.next.token) (f' w.next.token)) :
    Agree P seen m w w' (peek >>= f) (peek >>= f') := by
  show Alike P seen m (f w.next.token w) (f' w'.next.token w')
  rw [P.next_eq hw heof]
  exact h

/-- Places are the same only if they are compared. -/
theorem agree_currentSpan {f f' : Span → Parse β}
    (h : ∀ s s', (P.Exact → s' = s) → Agree P seen m w w' (f s) (f' s')) :
    Agree P seen m w w' (currentSpan >>= f) (currentSpan >>= f') :=
  h w.current.span w'.current.span fun hexact => by rw [(P.current hw).1 hexact]

/-- A failure of the grammar itself is one on both sides. -/
theorem agree_fail {cause : SyntaxCause}
    (hcause : cause ≠ .outOfFuel ∧ (∀ fault, cause ≠ .lexical fault) ∧
      ∀ token, cause ≠ .unexpected token ["文"]) {span span' : Span}
    (hspan : P.Exact → span' = span) :
    Agree P view m w w' (fail cause span : Parse α) (fail cause span') :=
  ⟨⟨fun hexact => by rw [hspan hexact], rfl⟩,
    ⟨hcause.1, fun fault hfault => absurd hfault (hcause.2.1 fault),
      fun token htoken => absurd htoken (hcause.2.2 token)⟩, P.left_of_beside hw⟩

theorem agree_failHere {cause : SyntaxCause}
    (hcause : cause ≠ .outOfFuel ∧ (∀ fault, cause ≠ .lexical fault) ∧
      ∀ token, cause ≠ .unexpected token ["文"]) :
    Agree P view m w w' (currentSpan >>= fun span => (fail cause span : Parse α))
      (currentSpan >>= fun span => fail cause span) :=
  agree_currentSpan hw fun _ _ => agree_fail hw hcause

/-- A token that is not expected is reported on both sides. -/
theorem agree_unexpected {expected : List String} (hexpected : expected = ["文"] → P.Stray) :
    Agree P view m w w' (unexpected expected : Parse α) (unexpected expected) := by
  have hcurrent := P.current hw
  have hleft := P.left_of_beside hw
  obtain ⟨⟨token, span⟩, next, closed, feed, ending⟩ := w
  obtain ⟨⟨token', span'⟩, next', closed', feed', ending'⟩ := w'
  obtain rfl : token' = token := hcurrent.2
  have hspan : P.Exact → span' = span := fun hexact => congrArg Lexeme.span (hcurrent.1 hexact)
  -- what is reported depends on the kind of token, and on nothing else of the window
  cases token'
  all_goals
    refine ⟨⟨fun hexact => ?_, rfl⟩, ⟨by rintro ⟨⟩, by rintro fault ⟨⟩, ?_⟩, hleft⟩
    · rw [hspan hexact]
    · rintro token ⟨⟩
      try exact hexpected rfl

/-- Passes a token. -/
theorem agree_advance {f f' : Lexeme → Parse β} (heof : w.current.token ≠ .eof)
    (h : ∀ y y', SameUpTo P.Exact Lexeme.token y y' → ∀ j w₁ w₁', P.Beside j w₁ w₁' → j < k →
      Agree P seen m w₁ w₁' (f y) (f' y')) :
    Agree P seen m w w' (advance >>= f) (advance >>= f') := by
  show Alike P seen m (EStateM.bind advance f w) (EStateM.bind advance f' w')
  rw [EStateM.bind, EStateM.bind]
  rcases P.advance hw heof with
    ⟨e, e', w₁, w₁', hsame, he, hleft, hfail, hfail'⟩ | ⟨j, w₁, w₁', hj, hpass, hpass', hw₁⟩
  · rw [hfail, hfail']
    refine ⟨⟨fun hexact => by rw [hsame.1 hexact], ?_⟩, SyntaxError.genuine_lexical he, hleft⟩
    rw [SyntaxError.erase, SyntaxError.erase, SyntaxCause.erase, SyntaxCause.erase, hsame.2]
  · rw [hpass, hpass']
    exact h _ _ (P.current hw) j w₁ w₁' hw₁ hj

/-- Passes a token that is not looked at. -/
theorem agree_passThen {f f' : PUnit → Parse β} (heof : w.current.token ≠ .eof)
    (h : ∀ j w₁ w₁', P.Beside j w₁ w₁' → j < k → Agree P seen m w₁ w₁' (f ⟨⟩) (f' ⟨⟩)) :
    Agree P seen m w w' (discard advance >>= f) (discard advance >>= f') := by
  rw [discard_eq, bind_assoc, bind_assoc]
  exact agree_advance hw heof fun _ _ _ => h

/-- Passes a token, and nothing else. -/
theorem agree_pass {view : PUnit → γ} (heof : w.current.token ≠ .eof) :
    Agree P view k w w' (discard advance : Parse PUnit) (discard advance) := by
  rw [discard_eq]
  exact agree_advance hw heof fun _ _ _ j w₁ w₁' hw₁ hj => agree_pure hw₁ hj (.refl _)

/-- Passes a token that is known. -/
theorem agree_expect {f f' : Span → Parse β} {t : Token} (ht : t.IsMark)
    (h : ∀ s s', (P.Exact → s' = s) → ∀ j w₁ w₁', P.Beside j w₁ w₁' → j < k →
      Agree P seen m w₁ w₁' (f s) (f' s')) :
    Agree P seen m w w' (expect t >>= f) (expect t >>= f') := by
  have hexpect : Agree P (fun _ : Span => ()) k w w' (expect t) (expect t) := by
    refine agree_current hw ?_
    split
    · rename_i hnow
      exact agree_advance hw (hnow ▸ ht.1) fun y y' hy j w₁ w₁' hw₁ hj =>
        agree_pure hw₁ hj (by grind)
    · exact agree_unexpected hw fun hspelling => absurd (List.cons.inj hspelling).1 ht.2
  exact hexpect.bind fun s s' hs => h s s' hs.1

/-- Passes a token that is known, and does not ask where it is. -/
theorem agree_expectThen {f f' : PUnit → Parse β} {t : Token} (ht : t.IsMark)
    (h : ∀ j w₁ w₁', P.Beside j w₁ w₁' → j < k → Agree P seen m w₁ w₁' (f ⟨⟩) (f' ⟨⟩)) :
    Agree P seen m w w' (discard (expect t) >>= f) (discard (expect t) >>= f') := by
  rw [discard_eq, bind_assoc, bind_assoc]
  exact agree_expect hw ht fun _ _ _ => h

/-- Passes a name. -/
theorem agree_expectIdent {f f' : Ident → Parse β}
    (h : ∀ id id', SameUpTo P.Exact Ident.erase id id' → ∀ j w₁ w₁', P.Beside j w₁ w₁' → j < k →
      Agree P seen m w₁ w₁' (f id) (f' id')) :
    Agree P seen m w w' (expectIdent >>= f) (expectIdent >>= f') := by
  have hexpect : Agree P Ident.erase k w w' expectIdent expectIdent := by
    refine agree_current hw ?_
    split
    · rename_i name hnow
      exact agree_advance hw (by simp [hnow]) fun y y' hy j w₁ w₁' hw₁ hj =>
        agree_pure hw₁ hj (by grind [Ident.erase])
    · exact agree_failHere hw (by simp)
    · exact agree_failHere hw (by simp)
  exact hexpect.bind h

theorem agree_setClosed {f f' : Unit → Parse β} (closed : Bool)
    (h : ∀ w₁ w₁', P.Beside k w₁ w₁' → Agree P seen m w₁ w₁' (f ()) (f' ())) :
    Agree P seen m w w' (setClosed closed >>= f) (setClosed closed >>= f') := by
  exact h { w with closedBlock := closed } { w' with closedBlock := closed }
    (P.setClosed hw closed)

/-- A break is skipped on both sides, or on neither. -/
theorem agree_skipNewlineIf (continues : Token → Bool) :
    Agree P id (k + 1) w w' (skipNewlineIf continues) (skipNewlineIf continues) := by
  have hstay : Agree P id (k + 1) w w' (pure ()) (pure ()) :=
    agree_pure hw (Nat.lt_succ_self k) (.refl _)
  refine agree_current hw ?_
  by_cases hnow : w.current.token = .newline
  · refine agree_peek hw (by simp [hnow]) ?_
    split
    · exact (agree_pass hw (by simp [hnow])).mono (Nat.le_succ k)
    · exact hstay
  · -- what stands behind another token makes no difference
    simp only [hnow, decide_false, Bool.false_and, Bool.false_eq_true, if_false]
    exact hstay

theorem agree_skipToken {t : Token} (ht : t ≠ .eof) :
    Agree P id (k + 1) w w' (skipToken t) (skipToken t) := by
  refine agree_current hw ?_
  split
  · rename_i hnow
    exact (agree_pass hw (hnow ▸ ht)).mono (Nat.le_succ k)
  · exact agree_pure hw (Nat.lt_succ_self k) (.refl _)

/-- Where a statement may end depends on the token, and on the block before it. -/
theorem agree_expectStatementEnd :
    Agree P id (k + 1) w w' expectStatementEnd expectStatementEnd := by
  have hpass (h : w.current.token ≠ .eof) :
      Agree P id (k + 1) w w' (discard advance : Parse PUnit) (discard advance) :=
    (agree_pass hw h).mono (Nat.le_succ k)
  have hstay : Agree P id (k + 1) w w' (pure ()) (pure ()) :=
    agree_pure hw (Nat.lt_succ_self k) (.refl _)
  refine agree_current hw ?_
  split
  · rename_i hnow
    exact hpass (by simp [hnow])
  · rename_i hnow
    exact hpass (by simp [hnow])
  · exact hstay
  · exact hstay
  -- no break, no comma, no end: the last block decides
  · show Alike P id (k + 1)
      ((if w.closedBlock then pure () else unexpected ["改行"] : Parse Unit) w)
      ((if w'.closedBlock then pure () else unexpected ["改行"] : Parse Unit) w')
    rw [P.closed_eq hw]
    split
    · exact hstay
    · exact agree_unexpected hw (by simp)

end Parse

end Dncl
