/-
Dncl/Token/Listing.lean

Tokens in listings: the name of a token's kind, and what it carries.
-/
import Dncl.Text.Quoted
import Dncl.Token

namespace Dncl

/-- The kind of a symbol. -/
def Symbol.kind : Symbol → String
  | plus => "Plus"
  | minus => "Minus"
  | times => "Asterisk"
  | slash => "Slash"
  | intDiv => "IntDiv"
  | percent => "Percent"
  | equal => "Equal"
  | notEqual => "NotEqual"
  | less => "LessThan"
  | lessEqual => "LessThanOrEqual"
  | greater => "GreaterThan"
  | greaterEqual => "GreaterThanOrEqual"
  | assign => "Assign"
  | comma => "Comma"
  | colon => "Colon"
  | leftParen => "LParen"
  | rightParen => "RParen"
  | leftBracket => "LSBracket"
  | rightBracket => "RSBracket"

/-- The kind of a keyword. -/
def Keyword.kind : Keyword → String
  | function => "Function"
  | wo => "Wo"
  | endFunction => "EndFunction"
  | ifWord => "If"
  | thenWord => "Then"
  | elseIf => "ElseIf"
  | otherwise => "Else"
  | startAt => "From"
  | upTo => "To"
  | stepBy => "By"
  | increasing => "Increasing"
  | decreasing => "Decreasing"
  | repeated => "Repeat"
  | whileWord => "While"
  | loop => "Loop"
  | untilWord => "Until"
  | andWord => "And"
  | orWord => "Or"
  | notWord => "Not"
  | increase => "Increment"
  | decrease => "Decrement"
  | giveBack => "Return"

/-- The kind of a token, whatever it carries. -/
def Token.kind : Token → String
  | ident _ => "Ident"
  | int _ => "Int"
  | str _ => "Str"
  | command _ => "System"
  | symbol s => s.kind
  | keyword k => k.kind
  | newline => "Newline"
  | indent => "Indent"
  | dedent => "Dedent"
  | eof => "Eof"

/-- The token in a listing: its kind, and in brackets what it carries. -/
def Token.listing (t : Token) : String :=
  match t with
  | ident name => t.kind ++ "(" ++ Text.quote name ++ ")"
  | int value => t.kind ++ "(" ++ toString value ++ ")"
  | str text => t.kind ++ "(" ++ Text.quote text ++ ")"
  | command text => t.kind ++ "(" ++ Text.quote text ++ ")"
  | _ => t.kind

end Dncl
