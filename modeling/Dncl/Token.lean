/-
Dncl/Token.lean

Tokens: the words and marks that a program text is made of.

* `Symbol` and `Keyword` list the fixed marks and words of the language, each
  with its normal spelling.
* `Token` adds names, literals, commands and the layout marks that stand for
  line breaks and changes of indentation.
* `Lexeme` is a token with the span of text it was read from.
* `Precedence` is the strength with which a token binds the expression
  before it.
-/
import Dncl.Span

namespace Dncl

/-! ### Fixed marks and words -/

/-- Operators, the assignment mark, separators and brackets. -/
inductive Symbol where
  | plus | minus | times | slash | intDiv | percent
  | equal | notEqual | less | lessEqual | greater | greaterEqual
  | assign | comma | colon
  | leftParen | rightParen | leftBracket | rightBracket
  deriving DecidableEq

/-- The normal spelling of a symbol. -/
def Symbol.spelling : Symbol → String
  | plus => "+"
  | minus => "-"
  | times => "*"
  | slash => "/"
  | intDiv => "÷"
  | percent => "%"
  | equal => "=="
  | notEqual => "!="
  | less => "<"
  | lessEqual => "<="
  | greater => ">"
  | greaterEqual => ">="
  | assign => "="
  | comma => ","
  | colon => ":"
  | leftParen => "("
  | rightParen => ")"
  | leftBracket => "["
  | rightBracket => "]"

/-- The words that structure a program. -/
inductive Keyword where
  /-- `関数` opens a function. -/
  | function
  /-- `を` marks what is acted on. -/
  | wo
  /-- `と定義する` closes a function. -/
  | endFunction
  /-- `もし` opens a conditional. -/
  | ifWord
  /-- `ならば` ends a condition. -/
  | thenWord
  /-- `そうでなくもし` opens a further condition. -/
  | elseIf
  /-- `そうでなければ` opens the last branch. -/
  | otherwise
  /-- `から` ends the first value of a counted loop. -/
  | startAt
  /-- `まで` ends the last value of a counted loop. -/
  | upTo
  /-- `ずつ` ends the step of a counted loop. -/
  | stepBy
  /-- `増やしながら` makes a counted loop run upwards. -/
  | increasing
  /-- `減らしながら` makes a counted loop run downwards. -/
  | decreasing
  /-- `繰り返す` may end the head of a loop. -/
  | repeated
  /-- `の間` ends the condition of a loop that tests first. -/
  | whileWord
  /-- `繰り返し` opens a loop that tests last. -/
  | loop
  /-- `になるまで実行する` ends the condition of a loop that tests last. -/
  | untilWord
  /-- `かつ` is conjunction. -/
  | andWord
  /-- `または` is disjunction. -/
  | orWord
  /-- `でない` is negation, written after its operand. -/
  | notWord
  /-- `増やす` adds to a variable. -/
  | increase
  /-- `減らす` subtracts from a variable. -/
  | decrease
  /-- `を返す` ends the value of a function. -/
  | giveBack
  deriving DecidableEq

/-- The spelling of a keyword. -/
def Keyword.spelling : Keyword → String
  | function => "関数"
  | wo => "を"
  | endFunction => "と定義する"
  | ifWord => "もし"
  | thenWord => "ならば"
  | elseIf => "そうでなくもし"
  | otherwise => "そうでなければ"
  | startAt => "から"
  | upTo => "まで"
  | stepBy => "ずつ"
  | increasing => "増やしながら"
  | decreasing => "減らしながら"
  | repeated => "繰り返す"
  | whileWord => "の間"
  | loop => "繰り返し"
  | untilWord => "になるまで実行する"
  | andWord => "かつ"
  | orWord => "または"
  | notWord => "でない"
  | increase => "増やす"
  | decrease => "減らす"
  | giveBack => "を返す"

/-! ### Tokens -/

/-- A token of a program text. -/
inductive Token where
  | ident (name : String)
  | int (value : Int)
  | str (text : String)
  /-- A command to the world outside, written between `【` and `】`. -/
  | command (text : String)
  | symbol (s : Symbol)
  | keyword (k : Keyword)
  | newline
  | indent
  | dedent
  | eof
  deriving DecidableEq, Inhabited

namespace Token

/-- Whether the token is one of the words of the language. -/
def isKeyword : Token → Bool
  | .keyword _ => true
  | _ => false

/-- Whether the token joins two expressions to one. -/
def isOperator : Token → Bool
  | .symbol .plus | .symbol .minus | .symbol .times
  | .symbol .slash | .symbol .intDiv | .symbol .percent => true
  | .symbol .equal | .symbol .notEqual => true
  | .symbol .less | .symbol .lessEqual | .symbol .greater | .symbol .greaterEqual => true
  | .keyword .andWord | .keyword .orWord => true
  | _ => false

/-- Whether a statement may end before the token. -/
def isTerminator : Token → Bool
  | .newline | .dedent | .eof => true
  | _ => false

/-- The token as it is named to a reader.  The text of a string stands
between its quotes as it is. -/
def spelling : Token → String
  | .ident name => name
  | .int value => toString value
  | .str text => "\"" ++ text ++ "\""
  | .command text => "【" ++ text ++ "】"
  | .symbol s => s.spelling
  | .keyword k => k.spelling
  | .newline => "\n"
  | .indent => "<indent>"
  | .dedent => "<dedent>"
  | .eof => "\x00"

end Token

/-- A token with the span that it was read from. -/
structure Lexeme where
  token : Token
  span : Span
  deriving DecidableEq, Inhabited

/-! ### Precedence -/

/-- How tightly an operator binds, from the loosest to the tightest. -/
inductive Precedence where
  | lowest
  | disjunction
  | conjunction
  | negation
  | equality
  | ordering
  | sum
  | product
  | sign
  | application
  deriving DecidableEq

/-- The levels as numbers in rising order. -/
def Precedence.level : Precedence → Nat
  | lowest => 0
  | disjunction => 1
  | conjunction => 2
  | negation => 3
  | equality => 4
  | ordering => 5
  | sum => 6
  | product => 7
  | sign => 8
  | application => 9

/-- How tightly the token binds the expression before it. -/
def Token.precedence : Token → Precedence
  | .keyword .orWord => .disjunction
  | .keyword .andWord => .conjunction
  | .keyword .notWord => .negation
  | .symbol .equal | .symbol .notEqual => .equality
  | .symbol .less | .symbol .greater | .symbol .lessEqual | .symbol .greaterEqual => .ordering
  | .symbol .plus | .symbol .minus => .sum
  | .symbol .times | .symbol .slash | .symbol .intDiv | .symbol .percent => .product
  | .symbol .leftParen | .symbol .leftBracket => .application
  | _ => .lowest

end Dncl
