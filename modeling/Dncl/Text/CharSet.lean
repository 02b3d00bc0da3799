/-
Dncl/Text/CharSet.lean

Sets of characters given by runs of code points.

A set is a list of pages in rising order.  A page carries its first and its
last code point and the lengths of its runs, which are in the set and out of it
in turn, so a question about a character looks at one page only:

* the page of `c` is the first one whose last code point is not below `c`;
* `c` is in the set when it does not lie before that page, and the run that it
  falls in is the first, the third, the fifth and so on.
-/

namespace Dncl.Text

/-- The runs of code points from `first` up to `last`.  The first run is in the
set. -/
structure CharPage where
  first : Nat
  last : Nat
  runs : List Nat

/-- A set of characters, page by page in rising order. -/
structure CharSet where
  pages : List CharPage

/-- Whether the code point that is `n` places behind the start of some runs is in
the set.  The first of these runs is in the set if `inside` says so. -/
def inRuns (inside : Bool) (n : Nat) : List Nat → Bool
  | [] => false
  | run :: runs => if n < run then inside else inRuns (!inside) (n - run) runs

/-- Whether the code point `n` is in the set, as far as the page knows. -/
def CharPage.holds (p : CharPage) (n : Nat) : Bool :=
  p.first ≤ n && inRuns true (n - p.first) p.runs

/-- Membership: the page that speaks for `c` is asked. -/
def CharSet.contains (s : CharSet) (c : Char) : Bool :=
  match s.pages.find? fun p => c.toNat ≤ p.last with
  | some p => p.holds c.toNat
  | none => false

end Dncl.Text
