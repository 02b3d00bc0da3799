/-
Dncl/Span.lean

Spans: half-open ranges of byte offsets into a program text.

A span may be empty, and nothing forbids one whose end lies before its start;
its length is then zero.  Offsets have no bound of their own: those of a text lie
within it, so they are below `2 ^ 32` if its size is.
-/

namespace Dncl

/-- The bytes from `start` up to and excluding `stop`. -/
structure Span where
  start : Nat := 0
  stop : Nat := 0
  deriving DecidableEq, Inhabited

namespace Span

/-- The least span that covers both. -/
def cover (a b : Span) : Span :=
  ⟨min a.start b.start, max a.stop b.stop⟩

/-- The number of bytes in the span. -/
def length (s : Span) : Nat :=
  s.stop - s.start

/-- Whether the span holds no byte. -/
def isEmpty (s : Span) : Bool :=
  s.length == 0

/-- The two offsets with two dots between them. -/
def text (s : Span) : String :=
  toString s.start ++ ".." ++ toString s.stop

end Span

end Dncl
