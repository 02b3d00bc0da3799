/-
Dncl/Token/Word.lean

Words: how a run of letters is cut into keywords and names.

Japanese is written without blanks, so a keyword may follow a name directly.
At the start of a word the longest keyword is taken; otherwise a name is read
up to the first character that cannot continue it, or the first place past
its beginning where a keyword starts with a non-ASCII character.
-/
import Dncl.Text.Letter
import Dncl.Text.Numeral
import Dncl.Token.Reading

namespace Dncl

/-- Whether a name may begin with `c`. -/
def isNameStart (c : Char) : Bool :=
  c == '_' || Text.isLetter c

/-- Whether a name may go on with `c`. -/
def isNameChar (c : Char) : Bool :=
  c == '_' || Text.isLetter c || Text.isNumeral c

namespace Keyword

/-- All keywords, longer ones first, so that the first that fits is the
longest that fits. -/
def longestFirst : List Keyword :=
  [untilWord, elseIf, otherwise, increasing, decreasing, endFunction, repeated, loop,
    thenWord, notWord, giveBack, increase, decrease, orWord, ifWord, function, startAt,
    upTo, stepBy, whileWord, andWord, wo]

/-- The keyword that a text begins with, the longest one if several fit. -/
def startOf? (cs : List Char) : Option Keyword :=
  longestFirst.find? fun k => k.spelling.toList.isPrefixOf cs

/-- The keyword with a given spelling. -/
def ofSpelling? (word : String) : Option Keyword :=
  longestFirst.find? fun k => k.spelling == word

end Keyword

/-- Whether a name that has begun ends before this text: the next character
cannot go on with it, or a keyword starts here. -/
def endsName : List Char → Bool
  | [] => true
  | c :: cs => !isNameChar c || (127 < c.toNat && (Keyword.startOf? (c :: cs)).isSome)

/-- Reads the rest of a name that has begun. -/
def readNameTail : List Char → Reading (List Char)
  | [] => ⟨[], [], []⟩
  | c :: cs =>
    if endsName (c :: cs) then ⟨[], [], c :: cs⟩
    else
      let r := readNameTail cs
      ⟨c :: r.value, c :: r.taken, r.rest⟩

/-- Reads the word that begins with the letter `c`: a keyword if one fits, a
name otherwise. -/
def readWord (c : Char) (cs : List Char) : Reading Token :=
  match Keyword.startOf? (c :: cs) with
  | some k =>
    ⟨.keyword k, (c :: cs).take k.spelling.length, (c :: cs).drop k.spelling.length⟩
  | none =>
    let r := readNameTail cs
    ⟨.ident (String.ofList (c :: r.value)), c :: r.taken, r.rest⟩

end Dncl
