/-
Dncl/Proofs/Lockstep.lean

Places do not influence what a program does.

Two programs that are the same without their places, run with the console from
sessions that are alike, take the same steps.  So both go on for ever, or both
end, and then with results that are alike, with the same output and the same
input left, and with sessions that are alike again.

Design.  Machines are alike (`Machine.Alike`) if their code is the same without
places and everything else corresponds under a link of their stores.  Code is
compared by `erase`; `Expr.Matches` and `Stmt.Matches` say what follows for its
parts.  A step may make scopes, arrays and functions on both sides, so its
result is alike under a link that has grown (`Machine.Meets`):

    Alike.step :  m.Alike L n → (m.step …).Meets L (n.step …)
-/
import Dncl.Proofs.Alike
import Dncl.Proofs.SignalFree

namespace Dncl

open List (Forall₂)

variable {f f' : Frame} {vs ws : List Value} {s t : Session Console} {c c' : Control}
    {loop loop' : Counting} {u u' x y : Value} {b b' : Block} {e e' : Expr} {p p' : Purpose}
    {es es' : List Expr}

/-! ### Code without places -/

/-- The same expression, without places. -/
abbrev Expr.Same (e e' : Expr) : Prop :=
  e.erase = e'.erase

/-- The same statement, without places. -/
abbrev Stmt.Same (s s' : Stmt) : Prop :=
  s.erase = s'.erase

/-- The same block, without places. -/
abbrev Block.Same (b b' : Block) : Prop :=
  b.erase = b'.erase

theorem forall₂_of_map_eq {α β : Type} {f : α → β} {xs ys : List α} (h : xs.map f = ys.map f) :
    Forall₂ (fun x y => f x = f y) xs ys := by
  rw [← List.forall₂_eq_eq_eq, List.forall₂_map_left_iff, List.forall₂_map_right_iff] at h
  exact h

theorem Expr.eraseAll_eq_map (es : List Expr) : Expr.eraseAll es = es.map Expr.erase := by
  induction es with
  | nil => rfl
  | cons e es ih => rw [Expr.eraseAll, ih, List.map_cons]

theorem Stmt.eraseAll_eq_map (ss : List Stmt) : Stmt.eraseAll ss = ss.map Stmt.erase := by
  induction ss with
  | nil => rfl
  | cons s ss ih => rw [Stmt.eraseAll, ih, List.map_cons]

theorem Expr.same_of_eraseAll (h : Expr.eraseAll es = Expr.eraseAll es') :
    Forall₂ Expr.Same es es' := by
  rw [eraseAll_eq_map, eraseAll_eq_map] at h
  exact forall₂_of_map_eq h

theorem Stmt.same_of_eraseAll {ss ss' : List Stmt} (h : Stmt.eraseAll ss = Stmt.eraseAll ss') :
    Forall₂ Stmt.Same ss ss' := by
  rw [eraseAll_eq_map, eraseAll_eq_map] at h
  exact forall₂_of_map_eq h

theorem Block.Same.statements (h : b.Same b') : Forall₂ Stmt.Same b.statements b'.statements := by
  obtain ⟨statements, span⟩ := b
  obtain ⟨statements', span'⟩ := b'
  rw [Block.Same, Block.erase, Block.erase] at h
  exact Stmt.same_of_eraseAll (Block.mk.inj h).1

theorem FunctionLit.body_of_erase {f f' : FunctionLit} (h : f.erase = f'.erase) :
    f.body.Same f'.body := by
  obtain ⟨params, body, span⟩ := f
  obtain ⟨params', body', span'⟩ := f'
  rw [FunctionLit.erase, FunctionLit.erase] at h
  exact (FunctionLit.mk.inj h).2.1

/-- Expressions of the same form with the same parts. -/
inductive Expr.Matches : Expr → Expr → Prop
  | ident {id id' : Ident} : id.name = id'.name → Matches (.ident id) (.ident id')
  | int (n : Int) (s s' : Span) : Matches (.int n s) (.int n s')
  | str (text : String) (s s' : Span) : Matches (.str text s) (.str text s')
  | absent (s s' : Span) : Matches (.absent s) (.absent s')
  | array {es es' : List Expr} (s s' : Span) : Forall₂ Expr.Same es es' →
      Matches (.array es s) (.array es' s')
  | prefixOp (op : Token) {e e' : Expr} (s s' : Span) : e.Same e' →
      Matches (.prefixOp op e s) (.prefixOp op e' s')
  | infixOp (op : Token) {e₁ e₂ e₁' e₂' : Expr} (s s' : Span) : e₁.Same e₁' → e₂.Same e₂' →
      Matches (.infixOp op e₁ e₂ s) (.infixOp op e₁' e₂' s')
  | index {e₁ e₂ e₁' e₂' : Expr} (s s' : Span) : e₁.Same e₁' → e₂.Same e₂' →
      Matches (.index e₁ e₂ s) (.index e₁' e₂' s')
  | call {e e' : Expr} {es es' : List Expr} (s s' : Span) : e.Same e' →
      Forall₂ Expr.Same es es' → Matches (.call e es s) (.call e' es' s')
  | builtin (function : Builtin) {es es' : List Expr} (s s' : Span) : Forall₂ Expr.Same es es' →
      Matches (.builtin function es s) (.builtin function es' s')
  | function {f f' : FunctionLit} : f.erase = f'.erase → Matches (.function f) (.function f')
  | command (c : Command) (s s' : Span) : Matches (.command c s) (.command c s')
  | nested {e e' : Expr} (s s' : Span) : e.Same e' → Matches (.nested e s) (.nested e' s')

/-- Without its places an expression still shows its form and its parts. -/
theorem Expr.Same.matches (h : e.Same e') : e.Matches e' := by
  rw [Expr.Same] at h
  -- expressions of different forms differ without places too
  cases e <;> cases e' <;> simp only [Expr.erase, reduceCtorEq] at h
  case ident.ident id id' => exact .ident (Ident.mk.inj (Expr.ident.inj h)).1
  case int.int n s n' s' =>
    obtain ⟨rfl, -⟩ := Expr.int.inj h
    exact .int n s s'
  case str.str text s text' s' =>
    obtain ⟨rfl, -⟩ := Expr.str.inj h
    exact .str text s s'
  case absent.absent s s' => exact .absent s s'
  case array.array es s es' s' => exact .array s s' (Expr.same_of_eraseAll (Expr.array.inj h).1)
  case prefixOp.prefixOp op e s op' e' s' =>
    obtain ⟨rfl, he, -⟩ := Expr.prefixOp.inj h
    exact .prefixOp op s s' he
  case infixOp.infixOp op e₁ e₂ s op' e₁' e₂' s' =>
    obtain ⟨rfl, he₁, he₂, -⟩ := Expr.infixOp.inj h
    exact .infixOp op s s' he₁ he₂
  case index.index e₁ e₂ s e₁' e₂' s' =>
    obtain ⟨he₁, he₂, -⟩ := Expr.index.inj h
    exact .index s s' he₁ he₂
  case call.call e es s e' es' s' =>
    obtain ⟨he, hes, -⟩ := Expr.call.inj h
    exact .call s s' he (Expr.same_of_eraseAll hes)
  case builtin.builtin function es s function' es' s' =>
    obtain ⟨rfl, hes, -⟩ := Expr.builtin.inj h
    exact .builtin function s s' (Expr.same_of_eraseAll hes)
  case function.function f f' => exact .function (Expr.function.inj h)
  case command.command c s c' s' =>
    obtain ⟨rfl, -⟩ := Expr.command.inj h
    exact .command c s s'
  case nested.nested e s e' s' => exact .nested s s' (Expr.nested.inj h).1

/-- Statements of the same form with the same parts. -/
inductive Stmt.Matches : Stmt → Stmt → Prop
  | expr {e e' : Expr} : e.Same e' → Matches (.expr e) (.expr e')
  | assign {e₁ e₂ e₁' e₂' : Expr} (s s' : Span) : e₁.Same e₁' → e₂.Same e₂' →
      Matches (.assign e₁ e₂ s) (.assign e₁' e₂' s')
  | conditional {c c' : Conditional} : c.erase = c'.erase →
      Matches (.conditional c) (.conditional c')
  | counted {id id' : Ident} {e₁ e₂ e₃ e₁' e₂' e₃' : Expr} (direction : Direction)
      {b b' : Block} (s s' : Span) : id.name = id'.name → e₁.Same e₁' → e₂.Same e₂' →
      e₃.Same e₃' → b.Same b' →
      Matches (.counted id e₁ e₂ e₃ direction b s) (.counted id' e₁' e₂' e₃' direction b' s')
  | whileLoop {e e' : Expr} {b b' : Block} (s s' : Span) : e.Same e' → b.Same b' →
      Matches (.whileLoop e b s) (.whileLoop e' b' s')
  | untilLoop {b b' : Block} {e e' : Expr} (s s' : Span) : b.Same b' → e.Same e' →
      Matches (.untilLoop b e s) (.untilLoop b' e' s')
  | change {e₁ e₂ e₁' e₂' : Expr} (direction : Direction) (s s' : Span) : e₁.Same e₁' →
      e₂.Same e₂' → Matches (.change e₁ e₂ direction s) (.change e₁' e₂' direction s')
  | define {id id' : Ident} {f f' : FunctionLit} (s s' : Span) : id.name = id'.name →
      f.erase = f'.erase → Matches (.define id f s) (.define id' f' s')
  | giveBack {e e' : Expr} (s s' : Span) : e.Same e' → Matches (.giveBack e s) (.giveBack e' s')

/-- So does a statement. -/
theorem Stmt.Same.matches {t t' : Stmt} (h : t.Same t') : t.Matches t' := by
  rw [Stmt.Same] at h
  cases t <;> cases t' <;> simp only [Stmt.erase, reduceCtorEq] at h
  case expr.expr e e' => exact .expr (Stmt.expr.inj h)
  case assign.assign e₁ e₂ s e₁' e₂' s' =>
    obtain ⟨he₁, he₂, -⟩ := Stmt.assign.inj h
    exact .assign s s' he₁ he₂
  case conditional.conditional c c' => exact .conditional (Stmt.conditional.inj h)
  case counted.counted id e₁ e₂ e₃ direction b s id' e₁' e₂' e₃' direction' b' s' =>
    obtain ⟨hid, he₁, he₂, he₃, rfl, hb, -⟩ := Stmt.counted.inj h
    exact .counted direction s s' (Ident.mk.inj hid).1 he₁ he₂ he₃ hb
  case whileLoop.whileLoop e b s e' b' s' =>
    obtain ⟨he, hb, -⟩ := Stmt.whileLoop.inj h
    exact .whileLoop s s' he hb
  case untilLoop.untilLoop b e s b' e' s' =>
    obtain ⟨hb, he, -⟩ := Stmt.untilLoop.inj h
    exact .untilLoop s s' hb he
  case change.change e₁ e₂ direction s e₁' e₂' direction' s' =>
    obtain ⟨he₁, he₂, rfl, -⟩ := Stmt.change.inj h
    exact .change direction s s' he₁ he₂
  case define.define id f s id' f' s' =>
    obtain ⟨hid, hf, -⟩ := Stmt.define.inj h
    exact .define s s' (Ident.mk.inj hid).1 hf
  case giveBack.giveBack e s e' s' => exact .giveBack s s' (Stmt.giveBack.inj h).1

/-- Branches of the same form with the same parts. -/
inductive ElseBranch.Matches : ElseBranch → ElseBranch → Prop
  | missing : Matches .missing .missing
  | elseIf {c c' : Conditional} : c.erase = c'.erase → Matches (.elseIf c) (.elseIf c')
  | otherwise {b b' : Block} : b.Same b' → Matches (.otherwise b) (.otherwise b')

theorem ElseBranch.matches_of_erase {a a' : ElseBranch} (h : a.erase = a'.erase) :
    a.Matches a' := by
  cases a <;> cases a' <;> simp only [ElseBranch.erase, reduceCtorEq] at h
  case missing.missing => exact .missing
  case elseIf.elseIf c c' => exact .elseIf (ElseBranch.elseIf.inj h)
  case otherwise.otherwise b b' => exact .otherwise (ElseBranch.otherwise.inj h)

/-- So do the condition and both branches of a conditional. -/
theorem Conditional.parts_of_erase {c c' : Conditional} (h : c.erase = c'.erase) :
    c.condition.Same c'.condition ∧ c.consequence.Same c'.consequence ∧
      c.alternative.Matches c'.alternative := by
  obtain ⟨condition, consequence, alternative, span⟩ := c
  obtain ⟨condition', consequence', alternative', span'⟩ := c'
  rw [Conditional.erase, Conditional.erase] at h
  obtain ⟨hcondition, hconsequence, halternative, -⟩ := Conditional.mk.inj h
  exact ⟨hcondition, hconsequence, ElseBranch.matches_of_erase halternative⟩

/-! ### Machines -/

/-- The same purpose, with callees that are alike. -/
inductive Purpose.Alike (L : Link) : Purpose → Purpose → Prop
  | array (s s' : Span) : Alike L (.array s) (.array s')
  | call {v w : Value} (s s' : Span) : v.Alike L w → Alike L (.call v s) (.call w s')
  | builtin (function : Builtin) (s s' : Span) :
      Alike L (.builtin function s) (.builtin function s')

/-- Counted loops with the same variable, bounds and body. -/
structure Counting.Alike (L : Link) (loop loop' : Counting) : Prop where
  counter : loop.counter.name = loop'.counter.name
  last : loop.last = loop'.last
  step : loop.step = loop'.step
  direction : loop.direction = loop'.direction
  body : loop.body.Same loop'.body
  env : loop.env.Alike L loop'.env

/-- Frames that are waiting for the same, with values and environments that are
alike. -/
inductive Frame.Alike (L : Link) : Frame → Frame → Prop
  | collect {p p' : Purpose} {vs ws : List Value} {es es' : List Expr} {env env' : Env} :
      p.Alike L p' → Forall₂ (Value.Alike L) vs ws → Forall₂ Expr.Same es es' → env.Alike L env' →
      Alike L (.collect p vs es env) (.collect p' ws es' env')
  | prefixOp (op : Token) (s s' : Span) : Alike L (.prefixOp op s) (.prefixOp op s')
  | infixLeft (op : Token) {e e' : Expr} {env env' : Env} (s s' : Span) : e.Same e' →
      env.Alike L env' → Alike L (.infixLeft op e env s) (.infixLeft op e' env' s')
  | infixRight (op : Token) {v w : Value} (s s' : Span) : v.Alike L w →
      Alike L (.infixRight op v s) (.infixRight op w s')
  | indexLeft {e e' : Expr} {env env' : Env} (s s' : Span) : e.Same e' → env.Alike L env' →
      Alike L (.indexLeft e env s) (.indexLeft e' env' s')
  | indexRight {v w : Value} (s s' : Span) : v.Alike L w →
      Alike L (.indexRight v s) (.indexRight w s')
  | callee {es es' : List Expr} {env env' : Env} (s s' : Span) : Forall₂ Expr.Same es es' →
      env.Alike L env' → Alike L (.callee es env s) (.callee es' env' s')
  | call (s s' : Span) : Alike L (.call s) (.call s')
  | sequence {ts ts' : List Stmt} {env env' : Env} (s s' : Span) : Forall₂ Stmt.Same ts ts' →
      env.Alike L env' → Alike L (.sequence ts s env) (.sequence ts' s' env')
  | program {ts ts' : List Stmt} {env env' : Env} : Forall₂ Stmt.Same ts ts' →
      env.Alike L env' → Alike L (.program ts env) (.program ts' env')
  | assign {e e' : Expr} {env env' : Env} (s s' : Span) : e.Same e' → env.Alike L env' →
      Alike L (.assign e env s) (.assign e' env' s')
  | storeLeft {e e' : Expr} {v w : Value} {env env' : Env} (t t' s s' : Span) : e.Same e' →
      v.Alike L w → env.Alike L env' → Alike L (.storeLeft e v env t s) (.storeLeft e' w env' t' s')
  | storeRight {v w x y : Value} (t t' s s' : Span) : v.Alike L w → x.Alike L y →
      Alike L (.storeRight v x t s) (.storeRight w y t' s')
  | branch {c c' : Conditional} {env env' : Env} : c.erase = c'.erase → env.Alike L env' →
      Alike L (.branch c env) (.branch c' env')
  | settle (s s' : Span) : Alike L (.settle s) (.settle s')
  | countFirst {id id' : Ident} {e₁ e₂ e₁' e₂' : Expr} (direction : Direction) {b b' : Block}
      (s s' : Span) {env env' : Env} : id.name = id'.name → e₁.Same e₁' → e₂.Same e₂' →
      b.Same b' → env.Alike L env' →
      Alike L (.countFirst id e₁ e₂ direction b s env) (.countFirst id' e₁' e₂' direction b' s' env')
  | countLast {id id' : Ident} {v w : Value} {e e' : Expr} (direction : Direction) {b b' : Block}
      (s s' : Span) {env env' : Env} : id.name = id'.name → v.Alike L w → e.Same e' →
      b.Same b' → env.Alike L env' →
      Alike L (.countLast id v e direction b s env) (.countLast id' w e' direction b' s' env')
  | countStep {id id' : Ident} {v w x y : Value} (t t' : Span) (direction : Direction)
      {b b' : Block} (s s' : Span) {env env' : Env} : id.name = id'.name → v.Alike L w →
      x.Alike L y → b.Same b' → env.Alike L env' →
      Alike L (.countStep id v x t direction b s env) (.countStep id' w y t' direction b' s' env')
  | countBody {loop loop' : Counting} (current : Int) : loop.Alike L loop' →
      Alike L (.countBody loop current) (.countBody loop' current)
  | whileTest {e e' : Expr} {b b' : Block} (s s' : Span) {env env' : Env} : e.Same e' →
      b.Same b' → env.Alike L env' → Alike L (.whileTest e b s env) (.whileTest e' b' s' env')
  | whileBody {e e' : Expr} {b b' : Block} (s s' : Span) {env env' : Env} : e.Same e' →
      b.Same b' → env.Alike L env' → Alike L (.whileBody e b s env) (.whileBody e' b' s' env')
  | untilBody {e e' : Expr} {b b' : Block} (s s' : Span) {env env' : Env} : e.Same e' →
      b.Same b' → env.Alike L env' → Alike L (.untilBody b e s env) (.untilBody b' e' s' env')
  | untilTest {e e' : Expr} {b b' : Block} (s s' : Span) {env env' : Env} : e.Same e' →
      b.Same b' → env.Alike L env' → Alike L (.untilTest b e s env) (.untilTest b' e' s' env')
  | changeTarget {e₁ e₂ e₁' e₂' : Expr} (direction : Direction) (s s' : Span) {env env' : Env} :
      e₁.Same e₁' → e₂.Same e₂' → env.Alike L env' →
      Alike L (.changeTarget e₁ e₂ direction s env) (.changeTarget e₁' e₂' direction s' env')
  | changeAmount {e e' : Expr} {v w : Value} (direction : Direction) (s s' : Span)
      {env env' : Env} : e.Same e' → v.Alike L w → env.Alike L env' →
      Alike L (.changeAmount e v direction s env) (.changeAmount e' w direction s' env')
  | giveBack (s s' : Span) : Alike L (.giveBack s) (.giveBack s')

/-- Failures that differ in their spans only. -/
inductive Fatal.Alike : Fatal → Fatal → Prop
  | invalidOrigin (origin : Int) : Alike (.invalidOrigin origin) (.invalidOrigin origin)
  | unexpectedReturn (function : Builtin) (s s' : Span) :
      Alike (.unexpectedReturn function s) (.unexpectedReturn function s')

/-- Machines that do the same next. -/
inductive Control.Alike (L : Link) : Control → Control → Prop
  | expr {e e' : Expr} {env env' : Env} : e.Same e' → env.Alike L env' →
      Alike L (.expr e env) (.expr e' env')
  | stmt {t t' : Stmt} {env env' : Env} : t.Same t' → env.Alike L env' →
      Alike L (.stmt t env) (.stmt t' env')
  | statements {ts ts' : List Stmt} (s s' : Span) {env env' : Env} : Forall₂ Stmt.Same ts ts' →
      env.Alike L env' → Alike L (.statements ts s env) (.statements ts' s' env')
  | conditional {c c' : Conditional} {env env' : Env} : c.erase = c'.erase → env.Alike L env' →
      Alike L (.conditional c env) (.conditional c' env')
  | count {loop loop' : Counting} : loop.Alike L loop' → Alike L (.count loop) (.count loop')
  | value {v w : Value} : v.Alike L w → Alike L (.value v) (.value w)
  | abort {f f' : Fatal} : f.Alike f' → Alike L (.abort f) (.abort f')

/-- Machines with the same code, and with stores that are alike. -/
structure Machine.Alike (L : Link) (m n : Machine Console) : Prop where
  control : m.control.Alike L n.control
  frames : Forall₂ (Frame.Alike L) m.frames n.frames
  store : m.store.Alike L n.store
  depth : m.depth = n.depth
  world : m.world = n.world

/-- Machines that are alike under a link that has grown from `L`. -/
def Machine.Meets (L : Link) (m n : Machine Console) : Prop :=
  ∃ L', L.Grows L' ∧ m.Alike L' n

section Mono

variable {L L' : Link} (hL : L.Grows L')

include hL

theorem Purpose.Alike.mono (h : p.Alike L p') : p.Alike L' p' := by
  cases h with
  | call s s' hv => exact .call s s' (hv.mono hL)
  | _ => constructor

theorem Counting.Alike.mono (h : loop.Alike L loop') : loop.Alike L' loop' :=
  { h with env := h.env.mono hL }

/-- What corresponds under a link does so under every link that grows from it. -/
theorem Frame.Alike.mono (h : f.Alike L f') : f.Alike L' f' := by
  cases h <;> constructor <;> first
    | assumption
    | exact Value.Alike.mono hL ‹_›
    | exact Env.Alike.mono hL ‹_›
    | exact alikeAll_mono hL ‹_›
    | exact Purpose.Alike.mono hL ‹_›
    | exact Counting.Alike.mono hL ‹_›

end Mono

/-! ### Operators -/

section Operators

variable {L : Link} {st st' : Store} {v w x y : Value}

/-- A number out of range is a fault wherever it is computed. -/
theorem alike_exactly (n : Int) (s s' : Span) : (exactly n s).Alike L (exactly n s') := by
  rw [exactly, exactly]
  split
  · exact .int _ s s'
  · exact Fault.alike_valueAt L _ s s'

theorem alike_divided (a b result : Int) (s s' : Span) :
    (divided a b result s).Alike L (divided a b result s') := by
  rw [divided, divided]
  split
  · exact Fault.alike_valueAt L _ s s'
  · split
    · exact .int _ s s'
    · exact Fault.alike_valueAt L _ s s'

theorem rel_intInfix (op : Token) (a b : Int) (s s' : Span) :
    Option.Rel (Value.Alike L) (intInfix? op a b s) (intInfix? op a b s') := by
  rw [intInfix?.eq_def, intInfix?.eq_def]
  split
  all_goals first
    | exact .some (alike_exactly _ s s')
    | exact .some (alike_divided _ _ _ s s')
    | exact .some (.bool _ s s')
    | exact .none

theorem rel_strInfix (op : Token) (a b : String) (s s' : Span) :
    Option.Rel (Value.Alike L) (strInfix? op a b s) (strInfix? op a b s') := by
  rw [strInfix?.eq_def, strInfix?.eq_def]
  split
  all_goals first
    | exact .some (.str _ s s')
    | exact .some (.bool _ s s')
    | exact .none

theorem rel_boolInfix (op : Token) (a b : Bool) (s s' : Span) :
    Option.Rel (Value.Alike L) (boolInfix? op a b s) (boolInfix? op a b s') := by
  rw [boolInfix?.eq_def, boolInfix?.eq_def]
  split
  all_goals first
    | exact .some (.bool _ s s')
    | exact .none

theorem rel_anyInfix (h : st.Alike L st') (hd : Store.Comparable L st st') (op : Token)
    (hv : v.Alike L w) (hx : x.Alike L y) (s s' : Span) :
    Option.Rel (Value.Alike L) (anyInfix? st op v x s) (anyInfix? st' op w y s') := by
  rw [anyInfix?.eq_def, anyInfix?.eq_def, h.equal_eq hd hv hx]
  split
  all_goals first
    | exact .some (.bool _ s s')
    | exact .none

/-- An operator combines two values and the values they are alike to, or neither. -/
theorem rel_combine (h : st.Alike L st') (hd : Store.Comparable L st st') (op : Token)
    (hv : v.Alike L w) (hx : x.Alike L y) (s s' : Span) :
    Option.Rel (Value.Alike L) (combine? st op v x s) (combine? st' op w y s') := by
  have hany := rel_anyInfix h hd op hv hx s s'
  cases hv <;> cases hx
  case int.int => exact rel_intInfix op _ _ s s'
  case str.str => exact rel_strInfix op _ _ s s'
  case bool.bool => exact rel_boolInfix op _ _ s s'
  case str.int =>
    rw [combine?, combine?]
    split
    · exact .some (.str _ s s')
    · exact hany
  case int.str =>
    rw [combine?, combine?]
    split
    · exact .some (.str _ s s')
    · exact hany
  all_goals exact hany

/-- An operator comes to results that are alike, faults included. -/
theorem alike_applyInfix (h : st.Alike L st') (hd : Store.Comparable L st st') (op : Token)
    (hv : v.Alike L w) (hx : x.Alike L y) (s s' : Span) :
    (applyInfix st op v x s).Alike L (applyInfix st' op w y s') := by
  rw [applyInfix, applyInfix, hv.kind_eq, hx.kind_eq]
  rcases rel_cases (rel_combine h hd op hv hx s s') with ⟨hc, hc'⟩ | ⟨r, r', hc, hc', hr⟩
  · rw [hc, hc']
    exact Fault.alike_valueAt L _ s s'
  · rw [hc, hc']
    exact hr

theorem alike_applyPrefix (op : Token) (hv : v.Alike L w) (s s' : Span) :
    (applyPrefix op v s).Alike L (applyPrefix op w s') := by
  have hfault : ((Fault.operand op v.kind).valueAt s).Alike L
      ((Fault.operand op w.kind).valueAt s') := by
    rw [hv.kind_eq]
    exact Fault.alike_valueAt L _ s s'
  cases op with
  | symbol c =>
    cases c with
    | minus =>
      cases hv with
      | int n t t' => exact alike_exactly _ s s'
      | _ => exact hfault
    | plus =>
      cases hv with
      | int n t t' => exact .int n s s'
      | _ => exact hfault
    | _ => exact hfault
  | keyword k =>
    cases k with
    | notWord =>
      cases hv with
      | bool b t t' => exact .bool _ s s'
      | _ => exact hfault
    | _ => exact hfault
  | _ => exact hfault

/-- A left operand decides on both sides, or on none. -/
theorem rel_decided (op : Token) (hv : v.Alike L w) (s s' : Span) :
    Option.Rel (Value.Alike L) (Machine.decided? op v s) (Machine.decided? op w s') := by
  cases op with
  | keyword k =>
    cases k with
    | andWord =>
      cases hv with
      | bool b t t' =>
        cases b with
        | false => exact .some (.bool false s s')
        | true => exact .none
      | _ => exact .none
    | orWord =>
      cases hv with
      | bool b t t' =>
        cases b with
        | false => exact .none
        | true => exact .some (.bool true s s')
      | _ => exact .none
    | _ => exact .none
  | _ => exact .none

/-! ### Arrays -/

/-- Linked arrays have as many elements. -/
theorem Store.Alike.size_eq (h : st.Alike L st') {a b : ArrayRef} (hab : L.array a b) :
    (st.elements a).size = (st'.elements b).size := by
  rw [← Array.length_toList, ← Array.length_toList]
  exact (h.arrays hab).length_eq

/-- An element is missing for the same reason, or it is the same element of
linked arrays. -/
theorem Store.Alike.slotOf (h : st.Alike L st') (origin : Origin) (hv : v.Alike L w)
    (hx : x.Alike L y) :
    (∃ f, Machine.slotOf origin st v x = .error f ∧ Machine.slotOf origin st' w y = .error f) ∨
    ∃ a b i, Machine.slotOf origin st v x = .ok (a, i) ∧
      Machine.slotOf origin st' w y = .ok (b, i) ∧ L.array a b := by
  cases hv with
  | @array a b s s' hab =>
    cases hx with
    | int n t t' =>
      rw [Machine.slotOf, Machine.slotOf, h.size_eq hab]
      split
      · exact .inr ⟨_, _, _, rfl, rfl, hab⟩
      · exact .inl ⟨_, rfl, rfl⟩
    | _ => exact .inl ⟨_, rfl, rfl⟩
  | _ => exact .inl ⟨_, rfl, rfl⟩

/-- Elements at the same position of linked arrays are alike. -/
theorem Store.Alike.fetch (h : st.Alike L st') (origin : Origin) (hv : v.Alike L w)
    (hx : x.Alike L y) (s s' : Span) :
    (Machine.fetch origin st v x s).Alike L (Machine.fetch origin st' w y s') := by
  rw [Machine.fetch, Machine.fetch]
  rcases h.slotOf origin hv hx with ⟨f, hf, hf'⟩ | ⟨a, b, i, hi, hi', hab⟩
  · rw [hf, hf']
    exact Fault.alike_valueAt L f s s'
  · obtain ⟨-, hlt⟩ := Machine.slotOf_eq_ok hi
    obtain ⟨-, hlt'⟩ := Machine.slotOf_eq_ok hi'
    have helement := (List.forall₂_iff_get.1 (h.arrays hab)).2 i hlt hlt'
    rw [hi, hi']
    simp only [Array.getD_eq_getD_getElem?, Array.getElem?_eq_getElem hlt,
      Array.getElem?_eq_getElem hlt']
    exact helement

/-! ### The console -/

/-- Built-in functions of the console come to values that are alike, and leave the
console in the same state. -/
theorem Console.alike_builtin (h : st.Alike L st') (hd : Store.Comparable L st st')
    (function : Builtin) (hvs : Forall₂ (Value.Alike L) vs ws) (s s' : Span) (c : Console) :
    (c.builtin function vs s st).1.Alike L (c.builtin function ws s' st').1 ∧
      (c.builtin function vs s st).2 = (c.builtin function ws s' st').2 := by
  have hfault := fun f => Fault.alike_valueAt L f s s'
  have harity : ((Fault.builtinArity function 1 vs.length).valueAt s).Alike L
      ((Fault.builtinArity function 1 ws.length).valueAt s') := by
    rw [hvs.length_eq]
    exact hfault _
  cases function with
  | print =>
    -- no place is printed, so the texts are equal
    have htexts : vs.map st.text = ws.map st'.text := by
      rw [← List.forall₂_eq_eq_eq, List.forall₂_map_left_iff, List.forall₂_map_right_iff]
      exact hvs.imp fun _ _ hv => h.text_eq hd hv
    rw [builtin, builtin, print, print, htexts]
    split
    · exact ⟨hfault (.printFailed c.refusal), rfl⟩
    · exact ⟨.null s s', rfl⟩
  | length =>
    refine ⟨?_, rfl⟩
    show (length st vs s).Alike L (length st' ws s')
    rcases hvs with - | ⟨hv, - | ⟨hx, hrest⟩⟩
    · exact harity
    · cases hv with
      | array t t' hab =>
        rw [length, length, h.size_eq hab]
        exact .int _ s s'
      | _ => exact hfault _
    · cases hv <;> exact harity
  | diff =>
    refine ⟨?_, rfl⟩
    show (diff vs s).Alike L (diff ws s')
    rcases hvs with - | ⟨hv, - | ⟨hx, hrest⟩⟩
    · exact harity
    · cases hv with
      | str text t t' =>
        rw [diff, diff]
        split
        · exact .int _ s s'
        · exact hfault _
      | _ => exact hfault _
    · cases hv <;> exact harity
  | giveBack =>
    refine ⟨?_, rfl⟩
    show (giveBack vs s).Alike L (giveBack ws s')
    rcases hvs with - | ⟨hv, - | ⟨hx, hrest⟩⟩
    · exact harity
    · exact .returned s s' hv
    · exact harity

/-- The console reads the same line whatever the place of the command. -/
theorem Console.alike_command (command : Command) (s s' : Span) (c : Console) :
    (c.command command s).1.Alike L (c.command command s').1 ∧
      (c.command command s).2 = (c.command command s').2 := by
  cases command with
  | other text => exact ⟨.null s s', rfl⟩
  | input =>
    rw [Console.command, Console.command, readLine, readLine]
    split
    · exact ⟨Fault.alike_valueAt L .noInput s s', rfl⟩
    · refine ⟨?_, rfl⟩
      rw [inputValue, inputValue]
      split
      · exact .int _ s s'
      · exact .str _ s s'
    · exact ⟨Fault.alike_valueAt L (.inputFailed _) s s', rfl⟩

end Operators

/-! ### Steps -/

namespace Machine

variable {settings : Settings} {L L' : Link} {m n : Machine Console} {v w : Value} {env env' : Env}

namespace Alike

variable (h : m.Alike L n)

include h

/-- Another control and another store, under a link that has grown. -/
theorem change (hL : L.Grows L') (hc : c.Alike L' c') {st st' : Store} (hst : st.Alike L' st')
    {d d' : Nat} (hdepth : d = d') {o o' : Console} (ho : o = o') :
    Meets L ⟨c, m.frames, st, d, o⟩ ⟨c', n.frames, st', d', o'⟩ :=
  ⟨L', hL, hc, h.frames.imp fun _ _ hf => hf.mono hL, hst, hdepth, ho⟩

theorem withFrames {fs fs' : List Frame} (hfs : Forall₂ (Frame.Alike L) fs fs') :
    Alike L { m with frames := fs } { n with frames := fs' } :=
  ⟨h.control, hfs, h.store, h.depth, h.world⟩

theorem pushed (hf : f.Alike L f') :
    Alike L { m with frames := f :: m.frames } { n with frames := f' :: n.frames } :=
  h.withFrames (.cons hf h.frames)

/-- Another control, with everything else as it was. -/
theorem turn (hc : c.Alike L c') : Meets L { m with control := c } { n with control := c' } :=
  h.change (.refl L) hc h.store h.depth h.world

theorem give (hv : v.Alike L w) : (m.give v).Meets L (n.give w) :=
  h.turn (.value hv)

theorem blame (f : Fault) (s s' : Span) : (m.blame f s).Meets L (n.blame f s') :=
  h.give (Fault.alike_valueAt L f s s')

theorem push (hf : f.Alike L f') (hc : c.Alike L c') : (m.push f c).Meets L (n.push f' c') :=
  (h.pushed hf).turn hc

/-- Both blocks get a scope of their own, by which the link grows. -/
theorem pushBlock (hf : f.Alike L f') (hb : b.Same b') (henv : env.Alike L env') :
    (m.pushBlock f b env).Meets L (n.pushBlock f' b' env') := by
  obtain ⟨L', hL, hinner, hst⟩ := h.store.enter henv
  exact (h.pushed hf).change hL (.statements _ _ hb.statements hinner) hst h.depth h.world

/-- A variable is set. -/
theorem assign (henv : env.Alike L env') {name name' : String} (hname : name = name')
    (hv : v.Alike L w) (hc : c.Alike L c') :
    Meets L { m with control := c, store := m.store.assign env name v }
      { n with control := c', store := n.store.assign env' name' w } := by
  subst hname
  exact h.change (.refl L) hc (h.store.assign henv name hv) h.depth h.world

/-- Functions that correspond take as many arguments and have the same body. -/
theorem apply (hv : v.Alike L w) (hvs : Forall₂ (Value.Alike L) vs ws) (s s' : Span) :
    (m.apply settings v vs s).Meets L (n.apply settings w ws s') := by
  cases hv with
  | @function a b t t' hab =>
    have hclosure := h.store.closures hab
    have hparams := FunctionLit.params_eq hclosure.literal
    -- as many arguments are too many or too few for both
    have harity : (m.store.closure a).literal.params.length =
        (n.store.closure b).literal.params.length := by
      simpa using congrArg List.length hparams
    rw [Machine.apply, Machine.apply]
    simp only [← hvs.length_eq, ← harity, ← h.depth]
    split
    · exact h.blame _ s s'
    · split
      · exact h.blame _ s s'
      · obtain ⟨L', hL, henv, hst⟩ := h.store.enter hclosure.env
        have hbody := (FunctionLit.body_of_erase hclosure.literal).statements
        exact (h.pushed (.call s s')).change hL (.statements _ _ hbody henv)
          (hst.bindParams henv hparams (alikeAll_mono hL hvs)) rfl h.world
  | _ => exact h.blame _ s s'

/-- A built-in function that ends the program does so on both sides. -/
theorem applyBuiltin (hd : Store.Comparable L m.store n.store) (function : Builtin)
    (hvs : Forall₂ (Value.Alike L) vs ws) (s s' : Span) :
    (m.applyBuiltin Console.host function vs s).Meets L
      (n.applyBuiltin Console.host function ws s') := by
  obtain ⟨hvalue, hworld⟩ : (Console.host.builtin function vs s m.store m.world).1.Alike L
        (Console.host.builtin function ws s' n.store n.world).1 ∧
      (Console.host.builtin function vs s m.store m.world).2.2 =
        (Console.host.builtin function ws s' n.store n.world).2.2 := by
    rw [h.world]
    exact Console.alike_builtin h.store hd function hvs s s' n.world
  have hkind := hvalue.kind_eq
  rw [Machine.applyBuiltin, Machine.applyBuiltin]
  simp only
  split
  · rename_i hreturned
    rw [if_pos (hkind ▸ hreturned)]
    exact h.change (.refl L) (.abort (.unexpectedReturn function s s')) h.store h.depth hworld
  · rename_i hreturned
    rw [if_neg (hkind ▸ hreturned)]
    exact h.change (.refl L) (.value hvalue) h.store h.depth hworld

theorem deliver (hd : Store.Comparable L m.store n.store) (hp : p.Alike L p')
    (hvs : Forall₂ (Value.Alike L) vs ws) :
    (m.deliver Console.host settings p vs).Meets L (n.deliver Console.host settings p' ws) := by
  cases hp with
  | array s s' =>
    obtain ⟨L', hL, href, hst⟩ := h.store.newArray hvs
    exact h.change hL (.value (.array s s' href)) hst h.depth h.world
  | call s s' hv => exact h.apply hv hvs s s'
  | builtin function s s' => exact h.applyBuiltin hd function hvs s s'

theorem collect (hd : Store.Comparable L m.store n.store) (hp : p.Alike L p')
    (hvs : Forall₂ (Value.Alike L) vs ws) (hes : Forall₂ Expr.Same es es')
    (henv : env.Alike L env') :
    (m.collect Console.host settings p vs es env).Meets L
      (n.collect Console.host settings p' ws es' env') := by
  cases hes with
  | nil => exact h.deliver hd hp (List.rel_reverse hvs)
  | cons he hes => exact h.push (.collect hp hvs hes henv) (.expr he henv)

/-- Evaluation begins alike, one case for each form of expression. -/
theorem beginExpr (hd : Store.Comparable L m.store n.store) (henv : env.Alike L env')
    (hsame : e.Same e') :
    (m.beginExpr Console.host settings env e).Meets L
      (n.beginExpr Console.host settings env' e') := by
  cases hsame.matches with
  | @ident id id' hid =>
    rw [Machine.beginExpr, Machine.beginExpr, ← hid]
    rcases rel_cases (h.store.get? henv id.name) with ⟨hv, hw⟩ | ⟨v, w, hv, hw, hvw⟩
    · rw [hv, hw]
      exact h.blame _ id.span id'.span
    · rw [hv, hw]
      exact h.give hvw
  | int k s s' => exact h.give (.int k s s')
  | str text s s' => exact h.give (.str text s s')
  | absent s s' => exact h.give (.null s s')
  | array s s' hes => exact h.collect hd (.array s s') .nil hes henv
  | prefixOp op s s' he => exact h.push (.prefixOp op s s') (.expr he henv)
  | infixOp op s s' he₁ he₂ => exact h.push (.infixLeft op s s' he₂ henv) (.expr he₁ henv)
  | index s s' he₁ he₂ => exact h.push (.indexLeft s s' he₂ henv) (.expr he₁ henv)
  | call s s' he hes => exact h.push (.callee s s' hes henv) (.expr he henv)
  | builtin function s s' hes => exact h.collect hd (.builtin function s s') .nil hes henv
  | @function f f' hf =>
    have hclosure : Closure.Alike L ⟨none, f, env⟩ ⟨none, f', env'⟩ := ⟨rfl, hf, henv⟩
    obtain ⟨L', hL, href, hst⟩ := h.store.newClosure hclosure
    exact h.change hL (.value (.function f.span f'.span href)) hst h.depth h.world
  | command c s s' =>
    obtain ⟨hvalue, hworld⟩ := Console.alike_command (L := L) c s s' m.world
    rw [h.world] at hvalue hworld
    rw [Machine.beginExpr, Machine.beginExpr]
    simp only [Console.host, h.world]
    exact h.change (.refl L) (.value hvalue) h.store h.depth hworld
  | nested s s' he => exact h.turn (.expr he henv)

/-- Execution begins alike, one case for each form of statement. -/
theorem beginStmt (henv : env.Alike L env') {t t' : Stmt} (ht : t.Same t') :
    (m.beginStmt env t).Meets L (n.beginStmt env' t') := by
  cases ht.matches with
  | expr he => exact h.turn (.expr he henv)
  | assign s s' he₁ he₂ => exact h.push (.assign s s' he₁ henv) (.expr he₂ henv)
  | conditional hc => exact h.turn (.conditional hc henv)
  | counted direction s s' hid he₁ he₂ he₃ hb =>
    exact h.push (.countFirst direction s s' hid he₂ he₃ hb henv) (.expr he₁ henv)
  | whileLoop s s' he hb => exact h.push (.whileTest s s' he hb henv) (.expr he henv)
  | untilLoop s s' hb he => exact h.pushBlock (.untilBody s s' he hb henv) hb henv
  | change direction s s' he₁ he₂ =>
    exact h.push (.changeTarget direction s s' he₁ he₂ henv) (.expr he₁ henv)
  | @define id id' f f' s s' hid hf =>
    have hclosure : Closure.Alike L ⟨some id.name, f, env⟩ ⟨some id'.name, f', env'⟩ :=
      ⟨congrArg some hid, hf, henv⟩
    obtain ⟨L', hL, href, hst⟩ := h.store.newClosure hclosure
    have hst := hst.define (henv.mono hL) id.name (.function s s' href)
    rw [Machine.beginStmt, Machine.beginStmt, makeFunction, makeFunction, ← hid]
    exact h.change hL (.value (.null s s')) (hid ▸ hst) h.depth h.world
  | giveBack s s' he => exact h.push (.giveBack s s') (.expr he henv)

/-- An element is stored on both sides, or refused for the same reason. -/
theorem storeElement (hd : Store.Comparable L m.store n.store) (origin : Origin) (hv : v.Alike L w)
    (hx : x.Alike L y) (hu : u.Alike L u') (t t' s s' : Span) :
    (m.storeElement origin v x u t s).Meets L (n.storeElement origin w y u' t' s') := by
  rw [Machine.storeElement, Machine.storeElement]
  rcases h.store.slotOf origin hv hx with ⟨f, hf, hf'⟩ | ⟨a, b, i, hi, hi', hab⟩
  · rw [hf, hf']
    exact h.blame f t t'
  · rw [hi, hi']
    simp only [h.store.contains_eq hd hu hab]
    split
    · exact h.blame _ t t'
    · exact h.change (.refl L) (.value (.null s s')) (h.store.setSlot hab i hu) h.depth h.world

theorem beginStore (hsame : e.Same e') (hv : v.Alike L w) (henv : env.Alike L env') (s s' : Span) :
    (m.beginStore e v env s).Meets L (n.beginStore e' w env' s') := by
  cases hsame.matches with
  | ident hid => exact h.assign henv hid hv (.value (.null s s'))
  | index t t' he₁ he₂ => exact h.push (.storeLeft t t' s s' he₂ hv henv) (.expr he₁ henv)
  | _ => exact h.blame _ _ _

/-- Bounds are refused on both sides, or both loops begin to count. -/
theorem beginCount {id id' : Ident} (hid : id.name = id'.name) (hv : v.Alike L w) (hx : x.Alike L y)
    (hu : u.Alike L u') (t t' : Span) (direction : Direction) (hb : b.Same b') (s s' : Span)
    (henv : env.Alike L env') :
    (m.beginCount id v x u t direction b s env).Meets L
      (n.beginCount id' w y u' t' direction b' s' env') := by
  have hbounds : (m.blame (.loopBounds v.kind x.kind u.kind) s).Meets L
      (n.blame (.loopBounds w.kind y.kind u'.kind) s') := by
    rw [hv.kind_eq, hx.kind_eq, hu.kind_eq]
    exact h.blame _ s s'
  cases hv with
  | int i r r' =>
    cases hx with
    | int j r r' =>
      cases hu with
      | int k r r' =>
        rw [Machine.beginCount, Machine.beginCount]
        split
        · exact h.blame _ t t'
        · exact h.assign henv hid (.int i _ _) (.count ⟨hid, rfl, rfl, rfl, hb, henv⟩)
      | _ => exact hbounds
    | _ => exact hbounds
  | _ => exact hbounds

theorem count (hloop : loop.Alike L loop') : (m.count loop).Meets L (n.count loop') := by
  have hrange : ∀ current, loop.inRange current = loop'.inRange current := by
    intro current
    rw [Counting.inRange, Counting.inRange, hloop.direction, hloop.last]
  rw [Machine.count, Machine.count, ← hloop.counter]
  rcases rel_cases (h.store.get? hloop.env loop.counter.name) with
    ⟨hv, hw⟩ | ⟨v, w, hv, hw, hvw⟩
  · rw [hv, hw]
    exact h.blame _ _ _
  · rw [hv, hw]
    cases hvw with
    | int current s s' =>
      simp only [hrange]
      split
      · exact h.pushBlock (.countBody current hloop) hloop.body hloop.env
      · exact h.give (.null _ _)
    | _ => exact h.blame _ _ _

theorem counterAfter_eq (hloop : loop.Alike L loop') (current : Int) :
    m.counterAfter loop current = n.counterAfter loop' current := by
  rw [counterAfter, counterAfter, ← hloop.counter]
  rcases rel_cases (h.store.get? hloop.env loop.counter.name) with
    ⟨hv, hw⟩ | ⟨v, w, hv, hw, hvw⟩
  · rw [hv, hw]
  · rw [hv, hw]
    cases hvw <;> rfl

/-- Both loops go on with the same number, or both end at the limit. -/
theorem countOn (hloop : loop.Alike L loop') (current : Int) :
    (m.countOn loop current).Meets L (n.countOn loop' current) := by
  have hafter : loop.after? (m.counterAfter loop current) =
      loop'.after? (n.counterAfter loop' current) := by
    rw [Counting.after?, Counting.after?, hloop.direction, hloop.step,
      h.counterAfter_eq hloop current]
  rw [Machine.countOn, Machine.countOn, hafter]
  split
  · exact h.assign hloop.env hloop.counter (.int _ _ _) (.count hloop)
  · exact h.give (.null _ _)

theorem choose {c c' : Conditional} (hc : c.erase = c'.erase) (henv : env.Alike L env')
    (hv : v.Alike L w) : (m.choose c env v).Meets L (n.choose c' env' w) := by
  obtain ⟨-, hconsequence, halternative⟩ := Conditional.parts_of_erase hc
  obtain ⟨condition, consequence, alternative, span⟩ := c
  obtain ⟨condition', consequence', alternative', span'⟩ := c'
  cases hv with
  | bool b t t' =>
    cases b with
    | true => exact h.pushBlock (.settle span span') hconsequence henv
    | false =>
      cases halternative with
      | missing => exact h.give (.null span span')
      | elseIf hd => exact h.push (.settle span span') (.conditional hd henv)
      | otherwise hb => exact h.pushBlock (.settle span span') hb henv
  | _ => exact h.blame _ _ _

/-- The frame on top takes the value that was computed, one case for each frame. -/
theorem resume (hd : Store.Comparable L m.store n.store) (hv : v.Alike L w) (hf : f.Alike L f') :
    (m.resume Console.host settings v f).Meets L (n.resume Console.host settings w f') := by
  cases hf with
  | collect hp hvs hes henv => exact h.collect hd hp (.cons hv hvs) hes henv
  | prefixOp op s s' => exact h.give (alike_applyPrefix op hv s s')
  | infixLeft op s s' he henv =>
    rw [Machine.resume, Machine.resume]
    rcases rel_cases (rel_decided op hv s s') with ⟨hr, hr'⟩ | ⟨r, r', hr, hr', hrr⟩
    · rw [hr, hr']
      exact h.push (.infixRight op s s' hv) (.expr he henv)
    · rw [hr, hr']
      exact h.give hrr
  | infixRight op s s' hx => exact h.give (alike_applyInfix h.store hd op hx hv s s')
  | indexLeft s s' he henv => exact h.push (.indexRight s s' hv) (.expr he henv)
  | indexRight s s' hx => exact h.give (h.store.fetch settings.origin hx hv s s')
  | callee s s' hes henv => exact h.collect hd (.call s s' hv) .nil hes henv
  | call s s' =>
    exact h.change (.refl L) (.value (.null s s')) h.store (congrArg (· - 1) h.depth) h.world
  | sequence s s' hts henv => exact h.turn (.statements s s' hts henv)
  | program hts henv =>
    cases hts with
    | nil => exact h.give hv
    | cons ht hts => exact h.push (.program hts henv) (.stmt ht henv)
  | assign s s' he henv => exact h.beginStore he hv henv s s'
  | storeLeft t t' s s' he hx henv => exact h.push (.storeRight t t' s s' hv hx) (.expr he henv)
  | storeRight t t' s s' hx hu => exact h.storeElement hd settings.origin hx hv hu t t' s s'
  | branch hc henv => exact h.choose hc henv hv
  | settle s s' => exact h.give (.null s s')
  | countFirst direction s s' hid he₁ he₂ hb henv =>
    exact h.push (.countLast direction s s' hid hv he₂ hb henv) (.expr he₁ henv)
  | countLast direction s s' hid hx he hb henv =>
    exact h.push (.countStep _ _ direction s s' hid hx hv hb henv) (.expr he henv)
  | countStep t t' direction s s' hid hx hu hb henv =>
    exact h.beginCount hid hx hu hv t t' direction hb s s' henv
  | countBody current hloop => exact h.countOn hloop current
  | whileTest s s' he hb henv =>
    cases hv with
    | bool b t t' =>
      cases b with
      | true => exact h.pushBlock (.whileBody s s' he hb henv) hb henv
      | false => exact h.give (.null s s')
    | _ => exact h.blame _ _ _
  | whileBody s s' he hb henv => exact h.push (.whileTest s s' he hb henv) (.expr he henv)
  | untilBody s s' he hb henv => exact h.push (.untilTest s s' he hb henv) (.expr he henv)
  | untilTest s s' he hb henv =>
    cases hv with
    | bool b t t' =>
      cases b with
      | true => exact h.give (.null s s')
      | false => exact h.pushBlock (.untilBody s s' he hb henv) hb henv
    | _ => exact h.blame _ _ _
  | changeTarget direction s s' he₁ he₂ henv =>
    exact h.push (.changeAmount direction s s' he₁ hv henv) (.expr he₂ henv)
  | changeAmount direction s s' he hx henv =>
    have hresult := alike_applyInfix h.store hd (changeOp direction) hx hv s s'
    rw [Machine.resume, Machine.resume, hresult.isSignal_eq]
    split
    · exact h.give hresult
    · exact h.beginStore he hresult henv s s'
  | giveBack s s' => exact h.give (.returned s s' hv)

/-- A signal leaves both frames, and only calls stop it. -/
theorem unwind (hv : v.Alike L w) (hf : f.Alike L f') : (m.unwind v f).Meets L (n.unwind w f') := by
  cases hf with
  | call s s' =>
    exact h.change (.refl L) (.value hv.unwrap) h.store (congrArg (· - 1) h.depth) h.world
  | _ => exact h.give hv

theorem leave (hf : f.Alike L f') : (m.leave f).Meets L (n.leave f') := by
  cases hf with
  | call s s' =>
    exact h.change (.refl L) h.control h.store (congrArg (· - 1) h.depth) h.world
  | _ => exact ⟨L, .refl L, h⟩

/-- **A step takes machines that are alike to machines that are alike.** -/
theorem step (hd : Store.Comparable L m.store n.store) :
    (m.step Console.host settings).Meets L (n.step Console.host settings) := by
  obtain ⟨control, frames, store, depth, world⟩ := m
  obtain ⟨control', frames', store', depth', world'⟩ := n
  cases h.control with
  | expr he henv => exact h.beginExpr hd henv he
  | stmt ht henv => exact h.beginStmt henv ht
  | statements s s' hts henv =>
    cases hts with
    | nil => exact h.give (.null s s')
    | cons ht hts => exact h.push (.sequence s s' hts henv) (.stmt ht henv)
  | conditional hc henv =>
    exact h.push (.branch hc henv) (.expr (Conditional.parts_of_erase hc).1 henv)
  | count hloop => exact h.count hloop
  | value hv =>
    cases h.frames with
    | nil => exact ⟨L, .refl L, h⟩
    | cons hf hfs =>
      have hbelow := h.withFrames hfs
      rw [Machine.step, Machine.step]
      -- values that are alike are signals together
      simp only [hv.isSignal_eq]
      split
      · exact hbelow.unwind hv hf
      · exact hbelow.resume hd hv hf
  | abort hfailure =>
    cases h.frames with
    | nil => exact ⟨L, .refl L, h⟩
    | cons hf hfs => exact (h.withFrames hfs).leave hf

/-- **So do all steps of a run.** -/
theorem run
    (hd : ∀ k, Store.Comparable L (m.run Console.host settings k).store
      (n.run Console.host settings k).store) (k : Nat) :
    (m.run Console.host settings k).Meets L (n.run Console.host settings k) := by
  induction k with
  | zero => exact ⟨L, .refl L, h⟩
  | succ k ih =>
    obtain ⟨L', hL, hk⟩ := ih
    have hd' := hd k
    -- a link that has grown allows for the same difference of the stores
    rw [Store.Comparable, ← hL.excess] at hd'
    rw [run_succ, run_succ]
    obtain ⟨L'', hL', hnext⟩ : Meets L' ((m.run Console.host settings k).step Console.host settings)
        ((n.run Console.host settings k).step Console.host settings) := hk.step hd'
    exact ⟨L'', hL.trans hL', hnext⟩

end Alike

end Machine

/-! ### Sessions -/

/-- Sessions in which environments are alike, with the same state of the
console. -/
structure Session.Alike (L : Link) (s t : Session Console) : Prop where
  store : s.store.Alike L t.store
  env : s.env.Alike L t.env
  world : s.world = t.world

/-- Results of runs that differ in their spans only. -/
inductive Outcome.Alike (L : Link) : Except Fatal Value → Except Fatal Value → Prop
  | ok {v w : Value} : v.Alike L w → Alike L (.ok v) (.ok w)
  | error {f f' : Fatal} : f.Alike f' → Alike L (.error f) (.error f')

namespace Machine.Alike

variable {L : Link} {m n : Machine Console}

/-- Programs that are the same begin alike. -/
theorem load (h : s.Alike L t) {p q : Program} (hpq : p.erase = q.erase) :
    (Machine.load s p).Alike L (Machine.load t q) := by
  have hstatements := Stmt.same_of_eraseAll (Program.mk.inj hpq).1
  obtain ⟨ts, span⟩ := p
  obtain ⟨ts', span'⟩ := q
  cases hstatements with
  | nil => exact ⟨.value (.null span span'), .nil, h.store, rfl, h.world⟩
  | cons ht hts =>
    exact ⟨.stmt ht h.env, .cons (.program hts h.env) .nil, h.store, rfl, h.world⟩

/-- Both runs have ended, with results that are alike, or both go on. -/
theorem outcome? (h : m.Alike L n) :
    Option.Rel (Outcome.Alike L) m.outcome? n.outcome? := by
  obtain ⟨control, frames, store, depth, world⟩ := m
  obtain ⟨control', frames', store', depth', world'⟩ := n
  cases h.frames with
  | nil =>
    cases h.control with
    | value hv => exact .some (.ok hv.unwrap)
    | abort hf => exact .some (.error hf)
    | _ => exact .none
  | cons hf hfs => exact .none

end Machine.Alike

/-! ### Finite stores stay finite -/

namespace Console

/-- The console leaves the store as it is. -/
theorem careful : host.Careful where
  refers := follows grounded
  builtin _ _ _ st _ _ _ := Store.Grows.refl st
  command _ _ st _ _ := Store.Grows.refl st

end Console

/-- Programs leave finite stores behind. -/
theorem Session.Reached.finite (h : s.Reached Console.host) : s.store.Finite :=
  ⟨h.obeys (Console.follows grounded), h.acyclic Console.careful,
    h.obeys (Console.follows unwrapped)⟩

/-- Sessions that programs leave can be compared, however many arrays they have. -/
theorem Session.Reached.comparable {L : Link} (hs : s.Reached Console.host)
    (ht : t.Reached Console.host) : Store.Comparable L s.store t.store :=
  .inr ⟨hs.finite, ht.finite⟩

/-- A run keeps a finite store finite. -/
theorem Session.finite_run (h : s.store.Finite) (settings : Settings) (p : Program) (n : Nat) :
    ((Machine.load s p).run Console.host settings n).store.Finite := by
  have hgrounded := ValueLaw.Obeyed.load h.grounded p
  have hacyclic : (Machine.load s p).store.Acyclic := by
    rw [Machine.store_load]
    exact h.acyclic
  exact ⟨(ValueLaw.run_obeys (Console.follows grounded) hgrounded n).stored,
    Machine.run_acyclic Console.careful hgrounded hacyclic n,
    (ValueLaw.run_obeys (Console.follows unwrapped) (.load h.unwrapped p) n).stored⟩

/-! ### Main result -/

/-- Programs that are the same without places, run for as many steps. -/
theorem Session.Alike.run {L : Link} (h : s.Alike L t) (hd : Store.Comparable L s.store t.store)
    (settings : Settings) {p q : Program} (hpq : p.erase = q.erase) (n : Nat) :
    ∃ L', L.Grows L' ∧
      Option.Rel (Outcome.Alike L') (s.run Console.host settings n p).1
        (t.run Console.host settings n q).1 ∧
      (s.run Console.host settings n p).2.Alike L' (t.run Console.host settings n q).2 := by
  have hstores : ∀ k, Store.Comparable L ((Machine.load s p).run Console.host settings k).store
      ((Machine.load t q).run Console.host settings k).store :=
    fun k => hd.imp id fun hfin => ⟨finite_run hfin.1 settings p k, finite_run hfin.2 settings q k⟩
  obtain ⟨L', hL, hrun⟩ := (Machine.Alike.load h hpq).run hstores n
  exact ⟨L', hL, hrun.outcome?, hrun.store, h.env.mono hL, hrun.world⟩

/-- **Places do not influence execution.**  Let two programs be the same without
their places, and let them be run with the console and the same settings from
sessions in which the environments are alike.

* After any number of steps both are still running or both have ended; the
  results are alike, and so are the sessions: what was printed and the input
  that is left are the same, and environments and arrays correspond one-to-one,
  with the link that was there at the start.
* So both go on for ever, or both end that way.

What can be seen of arrays depends on nothing else if no array lies inside
itself, as in every session that programs leave, or if there are as many of
them. -/
theorem execution_ignores_places (settings : Settings) (L : Link) (s t : Session Console)
    (h : s.Alike L t)
    (hd : Store.Comparable L s.store t.store ∨
      s.Reached Console.host ∧ t.Reached Console.host)
    (p q : Program) (hpq : p.erase = q.erase) :
    (∀ n, ∃ L', L.Grows L' ∧
      Option.Rel (Outcome.Alike L') (s.run Console.host settings n p).1
        (t.run Console.host settings n q).1 ∧
      (s.run Console.host settings n p).2.Alike L' (t.run Console.host settings n q).2) ∧
    ((∀ n, (s.run Console.host settings n p).1 = none ∧
        (t.run Console.host settings n q).1 = none) ∨
      ∃ n r r' L', L.Grows L' ∧ (s.run Console.host settings n p).1 = some r ∧
        (t.run Console.host settings n q).1 = some r' ∧ Outcome.Alike L' r r' ∧
        (s.run Console.host settings n p).2.Alike L' (t.run Console.host settings n q).2) := by
  have hcomparable : Store.Comparable L s.store t.store :=
    hd.elim id fun hreached => hreached.1.comparable hreached.2
  have hrun := h.run hcomparable settings hpq
  refine ⟨hrun, ?_⟩
  -- one run decides: where it ends the other one does, after as many steps
  by_cases hend : ∃ n r, (s.run Console.host settings n p).1 = some r
  · obtain ⟨n, r, hr⟩ := hend
    obtain ⟨L', hL, hresult, hsession⟩ := hrun n
    rcases rel_cases hresult with ⟨hnone, -⟩ | ⟨r, r', hr, hr', hrr⟩
    · rw [hnone] at hr
      cases hr
    · exact .inr ⟨n, r, r', L', hL, hr, hr', hrr, hsession⟩
  · refine .inl fun n => ?_
    obtain ⟨L', hL, hresult, hsession⟩ := hrun n
    rcases rel_cases hresult with hnone | ⟨r, r', hr, -, -⟩
    · exact hnone
    · exact absurd ⟨n, r, hr⟩ hend

/-- A session in which `x` and `y` are the same array. -/
def sharing (arrays : Array (Array Value)) (ref : ArrayRef) (span : Span) : Session Console :=
  ⟨⟨#[[("x", .array ref span), ("y", .array ref span)]], arrays, #[]⟩, ⟨⟨0⟩, []⟩, {}⟩

/-- The program that changes `y` and prints `x`. -/
def changesShared (span : Span) : Program :=
  ⟨[.assign (.index (.ident ⟨"y", span⟩) (.int 1 span) span) (.int 7 span) span,
    .expr (.builtin .print [.ident ⟨"x", span⟩] span)], span⟩

/-- The first array of one store is the second of another. -/
def crossed : Link where
  scope a b := a = ⟨0⟩ ∧ b = ⟨0⟩
  array a b := a = ⟨0⟩ ∧ b = ⟨1⟩
  closure _ _ := False
  excess := 0

/-- The session in which `x` and `y` are the first of two arrays. -/
def sharingFirst (span : Span) : Session Console :=
  sharing #[#[.int 1 span], #[]] ⟨0⟩ span

/-- The session in which `x` and `y` are the second of two arrays. -/
def sharingSecond (span : Span) : Session Console :=
  sharing #[#[], #[.int 1 span]] ⟨1⟩ span

/-- The sessions are alike though the array has another place in each store. -/
theorem alike_sharing (span span' : Span) :
    (sharingFirst span).Alike crossed (sharingSecond span') := by
  have hunique : ∀ {α : Type} (x y : α), Relator.BiUnique fun a b => a = x ∧ b = y :=
    fun x y => ⟨fun _ _ _ h h' => h.1.trans h'.1.symm, fun _ _ _ h h' => h.2.trans h'.2.symm⟩
  refine ⟨⟨hunique _ _, hunique _ _, ⟨nofun, nofun⟩, ?_, ?_, nofun, ?_, ?_, nofun, rfl⟩,
    .cons ⟨rfl, rfl⟩ .nil, rfl⟩
  · rintro _ _ ⟨rfl, rfl⟩
    exact ⟨Nat.one_pos, Nat.one_pos⟩
  · rintro _ _ ⟨rfl, rfl⟩
    exact ⟨Nat.two_pos, Nat.one_lt_two⟩
  · rintro _ _ ⟨rfl, rfl⟩ name
    have harray : Value.Alike crossed (.array ⟨0⟩ span) (.array ⟨1⟩ span') :=
      .array span span' ⟨rfl, rfl⟩
    show Option.Rel _ (Scope.get? name [("x", _), ("y", _)]) (Scope.get? name [("x", _), ("y", _)])
    simp only [Scope.get?]
    split
    · exact .some harray
    · split
      · exact .some harray
      · exact .none
  · rintro _ _ ⟨rfl, rfl⟩
    exact .cons (.int 1 span span') .nil

/-- The array is found, changed and printed wherever it is. -/
theorem execution_ignores_places_shared :
    (sharingFirst ⟨0, 1⟩).Alike crossed (sharingSecond ⟨5, 8⟩) ∧
    Store.Comparable crossed (sharingFirst ⟨0, 1⟩).store (sharingSecond ⟨5, 8⟩).store ∧
    (changesShared ⟨0, 1⟩).erase = (changesShared ⟨5, 8⟩).erase ∧
    ∃ L', crossed.Grows L' ∧
      Option.Rel (Outcome.Alike L')
        ((sharingFirst ⟨0, 1⟩).run Console.host {} 30 (changesShared ⟨0, 1⟩)).1
        ((sharingSecond ⟨5, 8⟩).run Console.host {} 30 (changesShared ⟨5, 8⟩)).1 ∧
      ((sharingSecond ⟨5, 8⟩).run Console.host {} 30 (changesShared ⟨5, 8⟩)).2.world.out =
        "[7]\n" := by
  have hs := alike_sharing ⟨0, 1⟩ ⟨5, 8⟩
  obtain ⟨L', hL, hresult, hend⟩ := (execution_ignores_places {} crossed _ _ hs (.inl (.inl rfl))
    (changesShared ⟨0, 1⟩) (changesShared ⟨5, 8⟩) rfl).1 30
  refine ⟨hs, .inl rfl, rfl, L', hL, hresult, ?_⟩
  rw [← hend.world]
  decide +kernel

end Dncl
