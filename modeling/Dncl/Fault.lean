/-
Dncl/Fault.lean

What can go wrong while a program runs, and how it is told.

A fault of a type (`Fault.isTypeFault`) comes from a value of the wrong kind;
all others come from a value of the right kind that does not fit.
-/
import Dncl.Syntax
import Dncl.Value

namespace Dncl

/-- The reasons for which a program stops with an error. -/
inductive Fault where
  | undefined (name : String)
  /-- A result that is no integer of a program. -/
  | overflow
  | divisionByZero
  /-- An array would come to lie inside itself. -/
  | selfContaining
  | notAssignable
  | stepNotPositive
  | wrongArity (needed given : Nat)
  | tooDeep (limit : Nat)
  | outOfRange (index first last : Int)
  | builtinArity (function : Builtin) (needed given : Nat)
  | notOneCharacter (function : Builtin) (text : String)
  | printFailed (reason : String)
  | noInput
  | inputFailed (reason : String)
  | operands (op : Token) (left right : Kind)
  | operand (op : Token) (kind : Kind)
  | condition (kind : Kind)
  | loopBounds (first last step : Kind)
  /-- The variable of a counted loop is no integer any more. -/
  | loopCounter (name : String) (kind : Kind)
  | notCallable (kind : Kind)
  | notIndexable (kind : Kind)
  | indexKind (kind : Kind)
  | arrayNeeded (function : Builtin) (kind : Kind)
  | stringNeeded (function : Builtin) (kind : Kind)

namespace Fault

/-- Whether the fault comes from a value of the wrong kind. -/
def isTypeFault : Fault → Bool
  | operands _ _ _ | operand _ _ | condition _ | loopBounds _ _ _ | loopCounter _ _ => true
  | notCallable _ | notIndexable _ | indexKind _ | arrayNeeded _ _ | stringNeeded _ _ => true
  | _ => false

/-- A piece of code inside a message. -/
def code (s : String) : String :=
  "`" ++ s ++ "`"

/-- The message to the author of the program. -/
def message : Fault → String
  | undefined name => code name ++ " は定義されていません"
  | overflow => "計算結果が整数の範囲を超えました"
  | divisionByZero => "0 で割ることはできません"
  | selfContaining => "配列をその配列自身の中に入れることはできません"
  | notAssignable => "代入できない式です"
  | stepNotPositive => "増分は正の整数でなければなりません"
  | wrongArity needed given =>
    "引数の数が違います: " ++ toString needed ++ " 個必要ですが " ++ toString given
      ++ " 個渡されました"
  | tooDeep limit => "関数の呼び出しが深すぎます (上限 " ++ toString limit ++ ")"
  | outOfRange index first last =>
    "添字 " ++ toString index ++ " は範囲外です (" ++ toString first ++ " から " ++ toString last
      ++ " まで)"
  | builtinArity function needed given =>
    code function.name ++ " の引数は " ++ toString needed ++ " 個です (" ++ toString given
      ++ " 個渡されました)"
  | notOneCharacter function text =>
    code function.name ++ " には 1 文字の文字列を渡してください (\"" ++ text ++ "\")"
  | printFailed reason => "表示に失敗しました: " ++ reason
  | noInput => "入力がありません"
  | inputFailed reason => "入力に失敗しました: " ++ reason
  | operands op left right =>
    code op.spelling ++ " は" ++ left.name ++ "と" ++ right.name ++ "には使えません"
  | operand op kind => code op.spelling ++ " は" ++ kind.name ++ "には使えません"
  | condition kind => "条件は真偽値でなければなりません (" ++ kind.name ++ ")"
  | loopBounds first last step =>
    "繰り返しの範囲は整数でなければなりません (" ++ first.name ++ ", " ++ last.name ++ ", "
      ++ step.name ++ ")"
  | loopCounter name kind =>
    code name ++ " が" ++ kind.name ++ "に変わったため繰り返しを続けられません"
  | notCallable kind => kind.name ++ "は呼び出せません"
  | notIndexable kind => kind.name ++ "には添字を使えません"
  | indexKind kind => "添字は整数でなければなりません (" ++ kind.name ++ ")"
  | arrayNeeded function kind =>
    code function.name ++ " は配列にだけ使えます (" ++ kind.name ++ ")"
  | stringNeeded function kind =>
    code function.name ++ " は文字列にだけ使えます (" ++ kind.name ++ ")"

/-- The value that a fault at some place comes to. -/
def valueAt (f : Fault) (span : Span) : Value :=
  if f.isTypeFault then .typeError f.message span else .error f.message span

end Fault

end Dncl
