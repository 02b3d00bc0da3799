/-
Dncl/Token/Error.lean

Why a text is not a sequence of tokens, and how that is told to its author.
-/
import Dncl.Text.Decimal
import Dncl.Text.Quoted
import Dncl.Token

namespace Dncl

/-- What is wrong with the text at some place. -/
inductive LexCause where
  /-- No token begins with this character. -/
  | unrecognized (c : Char)
  /-- A string without its closing quote. -/
  | unterminatedString
  /-- A command without its closing bracket. -/
  | unterminatedCommand
  /-- An integer above the greatest one. -/
  | integerTooLarge
  /-- A line that is set in like none of the open blocks. -/
  | unevenIndent
  deriving DecidableEq

/-- A fault of the text, with the place where it was found. -/
structure LexError where
  cause : LexCause
  span : Span
  deriving DecidableEq

/-- A code point with at least four hexadecimal digits. -/
def codePoint (c : Char) : String :=
  let digits := (Text.hex c).toUpper
  "U+" ++ String.ofList (List.replicate (4 - digits.length) '0') ++ digits

/-- The headline of a fault. -/
def LexCause.message : LexCause → String
  | unrecognized _ => "この文字は使えません"
  | unterminatedString => "文字列が閉じられていません"
  | unterminatedCommand => "`【` に対応する `】` がありません"
  | integerTooLarge => "整数が大きすぎます"
  | unevenIndent => "字下げがどのブロックにも揃っていません"

/-- The lines that follow the headline. -/
def LexCause.details : LexCause → List String
  | unrecognized c => ["`" ++ c.toString ++ "` (" ++ codePoint c ++ ")"]
  | unterminatedString => ["`\"` または `」` で閉じてください"]
  | unterminatedCommand => []
  | integerTooLarge => ["最大値は " ++ toString Text.maxInt ++ " です"]
  | unevenIndent => []

end Dncl
