/-
Dncl/Proofs/Stream.lean

Streams of tokens, and what parsing actions do to them.

A feed is a stream: its tokens one after the other, the end mark over and over
after the last one, or a fault.  A window is a stream too, that of its two
tokens and its feed.  All a parsing action can do with a window is to look at
the first two tokens of its stream and to pass the first:

    advance w = .ok lexeme w'  →  w'.stream = fun k => w.stream (k + 1).

`Window.Shows` says that the stream of a window is a list of tokens, and then
either the end mark for ever or a fault.
-/
import Dncl.Proofs.Derivation

namespace Dncl

/-! ### Streams -/

/-- The tokens and faults that are yielded one after the other. -/
abbrev Stream : Type :=
  Nat → Except LexError Token

variable {t : Token} {ts : List Token} {s : Stream}

namespace Stream

/-- The stream after its first item. -/
def tail (s : Stream) : Stream :=
  fun k => s (k + 1)

/-- The stream that yields a token first. -/
def cons (t : Token) (s : Stream) : Stream
  | 0 => .ok t
  | k + 1 => s k

/-- The stream that yields the tokens of a list first. -/
def prepend : List Token → Stream → Stream
  | [], s => s
  | t :: ts, s => cons t (prepend ts s)

/-- The end mark for ever. -/
def ended : Stream :=
  fun _ => .ok .eof

/-- Nothing can be read from the stream any more: it has ended, or there is a
fault. -/
def IsOver (s : Stream) : Prop :=
  s = ended ∨ ∃ fault, s 0 = .error fault

@[simp] theorem tail_cons (t : Token) (s : Stream) : (cons t s).tail = s := rfl

theorem prepend_append (ts us : List Token) (s : Stream) :
    prepend (ts ++ us) s = prepend ts (prepend us s) := by
  induction ts with
  | nil => rfl
  | cons t ts ih => exact congrArg (cons t) ih

theorem tail_prepend_ended (ts : List Token) :
    (prepend ts ended).tail = prepend ts.tail ended := by
  cases ts <;> rfl

/-- Two lists of tokens with equally many end marks that are read as the same
stream are the same. -/
theorem prepend_inj {us : List Token} (h : prepend ts ended = prepend us ended)
    (hcount : ts.count .eof = us.count .eof) : ts = us := by
  induction ts generalizing us with
  | nil =>
    cases us with
    | nil => rfl
    | cons u us =>
      obtain rfl : .eof = u := Except.ok.inj (congrFun h 0)
      simp at hcount
  | cons t ts ih =>
    cases us with
    | nil =>
      obtain rfl : t = .eof := Except.ok.inj (congrFun h 0)
      simp at hcount
    | cons u us =>
      obtain rfl : t = u := Except.ok.inj (congrFun h 0)
      rw [List.count_cons, List.count_cons] at hcount
      rw [ih (congrArg Stream.tail h) (Nat.add_right_cancel hcount)]

/-- A stream that yields something else than a fault next yields what is in
view. -/
theorem inView_eq (hs : s.IsOver) (h : prepend ts s 0 = .ok t) : inView ts = t := by
  cases ts with
  | cons u ts => exact Except.ok.inj h
  | nil =>
    rcases hs with rfl | ⟨fault, hfault⟩
    · exact Except.ok.inj h
    · rw [prepend, hfault] at h
      cases h

end Stream

namespace Feed

/-- The item that a feed yields next, the end mark if there is none. -/
def item (f : Feed) : Except LexError Token :=
  match f.pull.1 with
  | some (.ok lexeme) => .ok lexeme.token
  | some (.error fault) => .error fault
  | none => .ok .eof

/-- The stream of a feed. -/
def stream : Feed → Stream
  | f, 0 => f.item
  | f, k + 1 => stream f.pull.2 k

/-- A token other than the end mark lowers the bound. -/
theorem bound_pull_lt {f : Feed} (h : f.item = .ok t) (ht : t ≠ .eof) :
    f.pull.2.bound < f.bound := by
  rw [item] at h
  split at h
  · rename_i lexeme hpull
    obtain rfl : lexeme.token = t := Except.ok.inj h
    cases f with
    | text scanner =>
      have hnext : scanner.next = (.ok lexeme, scanner.next.2) :=
        Prod.ext (Option.some.inj hpull) rfl
      exact Scanner.supply_lt_of_next hnext ht
    | items rest =>
      cases rest with
      | nil => cases hpull
      | cons item rest => exact Nat.lt_succ_self _
  · cases h
  · exact absurd (Except.ok.inj h).symm ht

/-- The bound of a feed is one on the tokens of its stream. -/
theorem length_le_bound {f : Feed} (h : f.stream = .prepend ts s) (hts : .eof ∉ ts) :
    ts.length ≤ f.bound := by
  induction ts generalizing f with
  | nil => exact Nat.zero_le _
  | cons t ts ih =>
    have hfirst : f.item = .ok t := congrFun h 0
    have hrest : f.pull.2.stream = .prepend ts s := congrArg Stream.tail h
    have hle := ih hrest fun hmem => hts (List.mem_cons_of_mem t hmem)
    have hlt := bound_pull_lt hfirst fun heq => hts (heq ▸ List.mem_cons_self)
    exact Nat.succ_le_of_lt (Nat.lt_of_le_of_lt hle hlt)

theorem stream_items (lexemes : List Lexeme) :
    (Feed.items (lexemes.map .ok)).stream = .prepend (lexemes.map Lexeme.token) .ended := by
  induction lexemes with
  | nil =>
    funext k
    induction k with
    | zero => rfl
    | succ k ih => exact ih
  | cons lexeme lexemes ih =>
    funext k
    cases k with
    | zero => rfl
    | succ k => exact congrFun ih k

end Feed

namespace Window

/-- The stream of a window. -/
def stream (w : Window) : Stream :=
  .cons w.current.token (.cons w.next.token w.feed.stream)

/-- The window stands before the tokens `ts`, after which comes `s`; `closed`
says whether the last block ended with its lines. -/
structure Shows (w : Window) (closed : Bool) (ts : List Token) (s : Stream) : Prop where
  isOver : s.IsOver
  flag : w.closedBlock = closed
  stream : w.stream = Stream.prepend ts s

theorem Shows.current {w : Window} {c : Bool} (h : w.Shows c ts s) : w.current.token = inView ts :=
  (Stream.inView_eq h.isOver (congrFun h.stream 0).symm).symm

theorem Shows.next {w : Window} {c : Bool} (h : w.Shows c (t :: ts) s) : w.next.token = inView ts :=
  (Stream.inView_eq h.isOver (congrFun h.stream 1).symm).symm

end Window

/-! ### Actions -/

namespace Parse

variable {α β : Type} {w w' : Window}

theorem bind_eq_ok {x : Parse α} {f : α → Parse β} {b : β} :
    (x >>= f) w = .ok b w' ↔ ∃ a w₁, x w = .ok a w₁ ∧ f a w₁ = .ok b w' := by
  show EStateM.bind x f w = .ok b w' ↔ _
  rw [EStateM.bind]
  cases x w with
  | ok a w₁ =>
    constructor
    · exact fun h => ⟨a, w₁, rfl, h⟩
    · rintro ⟨a', w₁', ⟨⟩, h⟩
      exact h
  | error e w₁ =>
    constructor
    · rintro ⟨⟩
    · rintro ⟨a', w₁', ⟨⟩, h⟩

/-- The second action by a name, so that its cases can be split. -/
theorem exists_of_bind {x : Parse α} {f : α → Parse β} {b : β} (h : (x >>= f) w = .ok b w') :
    ∃ a w₁ y, x w = .ok a w₁ ∧ f a = y ∧ y w₁ = .ok b w' := by
  obtain ⟨a, w₁, hx, hf⟩ := bind_eq_ok.1 h
  exact ⟨a, w₁, f a, hx, rfl, hf⟩

theorem pure_eq_ok {a b : α} : (pure a : Parse α) w = .ok b w' ↔ a = b ∧ w = w' := by
  constructor
  · rintro ⟨⟩
    exact ⟨rfl, rfl⟩
  · rintro ⟨rfl, rfl⟩
    rfl

theorem current_eq_ok : current w = .ok t w' ↔ w.current.token = t ∧ w = w' :=
  pure_eq_ok

theorem peek_eq_ok : peek w = .ok t w' ↔ w.next.token = t ∧ w = w' :=
  pure_eq_ok

theorem not_fail {cause : SyntaxCause} {span : Span} {a : α} :
    (fail cause span : Parse α) w ≠ .ok a w' := by
  rintro ⟨⟩

theorem not_unexpected {expected : List String} {a : α} :
    (unexpected expected : Parse α) w ≠ .ok a w' := by
  intro h
  obtain ⟨w₁, w₂, -, h⟩ := bind_eq_ok.1 h
  cases ht : w₁.current.token <;> rw [ht] at h <;> exact not_fail h

/-- Passing a token moves the stream by one. -/
theorem advance_eq_ok {lexeme : Lexeme} (h : advance w = .ok lexeme w') :
    lexeme = w.current ∧ w'.closedBlock = w.closedBlock ∧ w'.stream = w.stream.tail := by
  rw [advance] at h
  split at h
  · rename_i next feed hpull
    cases h
    refine ⟨rfl, rfl, ?_⟩
    have hitem : w.feed.stream = .cons next.token feed.stream := by
      funext k
      cases k with
      | zero => simp only [Feed.stream, Feed.item, hpull, Stream.cons]
      | succ k => simp only [Feed.stream, hpull, Stream.cons]
    rw [Window.stream, Window.stream, Stream.tail_cons, hitem]
  · cases h
  · rename_i feed hpull
    cases h
    refine ⟨rfl, rfl, ?_⟩
    have hitem : w.feed.stream = .cons .eof feed.stream := by
      funext k
      cases k with
      | zero => simp only [Feed.stream, Feed.item, hpull, Stream.cons]
      | succ k => simp only [Feed.stream, hpull, Stream.cons]
    rw [Window.stream, Window.stream, Stream.tail_cons, hitem]

/-- A token can be passed unless the one that would come into view is a
fault. -/
theorem exists_advance (h : w.stream 2 = .ok t) : ∃ lexeme w', advance w = .ok lexeme w' := by
  rw [advance]
  split
  · exact ⟨_, _, rfl⟩
  · rename_i fault feed hpull
    have hitem : w.feed.item = .ok t := h
    rw [Feed.item, hpull] at hitem
    cases hitem
  · exact ⟨_, _, rfl⟩

theorem discard_eq_ok {x : Parse α} {u : PUnit} :
    (discard x) w = .ok u w' ↔ ∃ a, x w = .ok a w' := by
  show EStateM.map (fun _ => PUnit.unit) x w = .ok u w' ↔ _
  rw [EStateM.map]
  cases x w with
  | ok a w₁ =>
    constructor
    · rintro ⟨⟩
      exact ⟨a, rfl⟩
    · rintro ⟨a', ⟨⟩⟩
      rfl
  | error e w₁ =>
    constructor
    · rintro ⟨⟩
    · rintro ⟨a', ⟨⟩⟩

end Parse

/-- Passing a token leaves the tokens behind it in view. -/
theorem Window.Shows.advance {w w' : Window} {c : Bool} {lexeme : Lexeme}
    (h : w.Shows c (t :: ts) s) (done : Parse.advance w = .ok lexeme w') :
    lexeme.token = t ∧ w'.Shows c ts s := by
  obtain ⟨rfl, hflag, hstream⟩ := Parse.advance_eq_ok done
  refine ⟨h.current, h.isOver, hflag.trans h.flag, ?_⟩
  rw [hstream, h.stream]
  rfl

end Dncl
