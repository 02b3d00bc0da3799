/-
Dncl/Grammar/Error.lean

Why a sequence of tokens is not a program, and how that is told to its author.
-/
import Dncl.Token.Error

namespace Dncl

/-- What is wrong with a program at some token. -/
inductive SyntaxCause where
  /-- A token that fits none of the phrases that may stand here. -/
  | unexpected (token : Token) (expected : List String)
  /-- The program ends inside a phrase. -/
  | endOfProgram
  /-- A line is set in where no block begins. -/
  | indented
  | nameNeeded
  | blockNeeded
  /-- A value is to be stored in what cannot hold one. -/
  | notAssignable
  /-- The text itself is at fault. -/
  | lexical (fault : LexError)
  /-- The grammar was unfolded too few times; never met at `Window.fuel`. -/
  | outOfFuel
  deriving DecidableEq

/-- A fault of a program, with the place where it was found. -/
structure SyntaxError where
  cause : SyntaxCause
  span : Span
  deriving DecidableEq

/-- How a token is named when it was not expected. -/
def Token.asFound (t : Token) : String :=
  match t with
  | .int _ => "整数"
  | .str _ => "文字列"
  | .ident name => "名前 `" ++ name ++ "`"
  | .newline => "改行"
  | .dedent => "ブロックの終わり"
  | .keyword k => "キーワード `" ++ k.spelling ++ "`"
  | _ => "`" ++ t.spelling ++ "`"

namespace SyntaxCause

/-- The headline of a fault. -/
def message : SyntaxCause → String
  | unexpected _ _ => "ここには書けません"
  | endOfProgram => "プログラムが途中で終わっています"
  | indented => "字下げが不要な位置です"
  | nameNeeded => "名前が必要です"
  | blockNeeded => "ブロックが必要です"
  | notAssignable => "代入できない式です"
  | lexical fault => fault.cause.message
  | outOfFuel => "入れ子が深すぎます"

/-- The lines that follow the headline. -/
def details : SyntaxCause → List String
  | unexpected token expected =>
    (token.asFound ++ " が見つかりました。期待していたもの:") :: expected.map ("- " ++ ·)
  | blockNeeded => ["`:` の後に同じ行で文を書くか、次の行から字下げして書いてください"]
  | notAssignable => ["変数か配列の要素にだけ代入できます"]
  | lexical fault => fault.cause.details
  | endOfProgram | indented | nameNeeded | outOfFuel => []

end SyntaxCause

end Dncl
