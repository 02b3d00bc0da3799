/-
Dncl/Token/Mark.lean

Marks: the symbols of the language in all their spellings.

Most marks have an ASCII and a full-width form, and some a mathematical sign
besides.  A comparison may be written as a mark followed by an equals sign,
each of the two in either form.
-/
import Dncl.Token.Reading

namespace Dncl

namespace Symbol

/-- The marks that are one character. -/
def singles : List (Char × Symbol) :=
  [('+', plus), ('＋', plus),
    ('-', minus), ('－', minus), ('−', minus),
    ('*', times), ('＊', times), ('×', times),
    ('/', slash), ('／', slash),
    ('÷', intDiv),
    ('%', percent), ('％', percent),
    ('=', assign), ('＝', assign), ('←', assign),
    ('≠', notEqual),
    ('<', less), ('＜', less),
    ('≦', lessEqual), ('≤', lessEqual),
    ('>', greater), ('＞', greater),
    ('≧', greaterEqual), ('≥', greaterEqual),
    (',', comma), ('，', comma), ('、', comma),
    (':', colon), ('：', colon),
    ('(', leftParen), ('（', leftParen),
    (')', rightParen), ('）', rightParen),
    ('[', leftBracket), ('［', leftBracket),
    (']', rightBracket), ('］', rightBracket)]

/-- The characters that make another mark when an equals sign follows. -/
def beforeEquals : List (Char × Symbol) :=
  [('=', equal), ('＝', equal),
    ('!', notEqual), ('！', notEqual),
    ('<', lessEqual), ('＜', lessEqual),
    ('>', greaterEqual), ('＞', greaterEqual)]

end Symbol

/-- The equals sign in its two forms. -/
def isEqualsSign (c : Char) : Bool :=
  c == '=' || c == '＝'

/-- Reads the mark that begins with `c`, a mark of two characters if there is
one. -/
def readMark? (c : Char) (cs : List Char) : Option (Reading Symbol) :=
  let single := (Symbol.singles.lookup c).map fun s => ⟨s, [c], cs⟩
  match cs with
  | [] => single
  | e :: rest =>
    if isEqualsSign e then
      match Symbol.beforeEquals.lookup c with
      | some s => some ⟨s, [c, e], rest⟩
      | none => single
    else single

/-- How many brackets are open after a mark, when `depth` were open before.
A closing bracket with no open one is ignored. -/
def bracketDepth (depth : Nat) : Symbol → Nat
  | .leftParen | .leftBracket => depth + 1
  | .rightParen | .rightBracket => depth - 1
  | _ => depth

end Dncl
