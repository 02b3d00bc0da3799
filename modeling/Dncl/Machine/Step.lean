/-
Dncl/Machine/Step.lean

The steps of the machine.

* `begin` functions say how a phrase is taken apart: which part is evaluated
  first, and which frame waits for its value.
* `resume` says what a frame does with a value.
* `unwind` says what a frame does with a signal: all frames are left, up to
  the call whose function gives back a value.

`Machine.step` puts them together.  The machine has halted (`Machine.isHalted`)
when there is a value or a failure and no frame is left.

A signal is told from another value in one place, where `step` hands a value to
a frame.  This one check is made after every part that a phrase waits for:

* in expressions, the elements of an array, the operand of `prefixOp`, the two
  of `infixOp`, the array and the position of an element, the callee and the
  arguments of a call, and the arguments of a built-in function;
* in statements, the value that is assigned or given back, the array and the
  position of a target, the condition of a conditional and the branch that is
  taken, the bounds, the step and the body of a counted loop, the condition and
  the body of the other loops, and the target and the amount of a change;
* each statement of a block or of a program.

Two results have no frame that waits for them.  The result of the operator of a
change is checked by `resume` itself, at `changeAmount`.  What storing comes to
is the value of the statement, so that a signal is handed on as it is.
-/
import Dncl.Machine.Frame
import Dncl.Operation

namespace Dncl

namespace Counting

/-- Whether a counted loop goes on at a value of its variable. -/
def inRange (loop : Counting) (current : Int) : Bool :=
  match loop.direction with
  | .increasing => current ≤ loop.last
  | .decreasing => loop.last ≤ current

/-- The value of the variable after a value, if it is an integer of a program. -/
def after? (loop : Counting) (current : Int) : Option Int :=
  match loop.direction with
  | .increasing => Text.checked (current + loop.step)
  | .decreasing => Text.checked (current - loop.step)

end Counting

namespace Machine

variable {σ : Type}

/-! ### Small moves -/

/-- Hands a value to the topmost frame. -/
def give (m : Machine σ) (v : Value) : Machine σ :=
  { m with control := .value v }

/-- Ends with a fault at a place. -/
def blame (m : Machine σ) (f : Fault) (span : Span) : Machine σ :=
  m.give (f.valueAt span)

/-- Does something first and leaves the rest to a frame. -/
def push (m : Machine σ) (f : Frame) (c : Control) : Machine σ :=
  { m with control := c, frames := f :: m.frames }

/-- Runs a block in a scope of its own, and leaves the rest to a frame. -/
def pushBlock (m : Machine σ) (f : Frame) (b : Block) (env : Env) : Machine σ :=
  match m.store.enter env with
  | (inner, store) =>
    { m with
      control := .statements b.statements b.span inner
      frames := f :: m.frames
      store := store }

/-! ### Arrays -/

/-- The array and the slot that an element stands for. -/
def slotOf (origin : Origin) (st : Store) (container position : Value) :
    Except Fault (ArrayRef × Nat) :=
  match container with
  | .array ref _ =>
    match position with
    | .int index _ =>
      let size := (st.elements ref).size
      let slot := index - origin.offset
      if 0 ≤ slot ∧ slot < size then .ok (ref, slot.toNat)
      else .error (.outOfRange index origin.offset (origin.offset + size - 1))
    | other => .error (.indexKind other.kind)
  | other => .error (.notIndexable other.kind)

/-- The value of an element. -/
def fetch (origin : Origin) (st : Store) (container position : Value) (span : Span) : Value :=
  match slotOf origin st container position with
  | .ok (ref, slot) => (st.elements ref).getD slot default
  | .error fault => fault.valueAt span

/-- Stores a value in an element, unless an array would come to lie inside
itself.  A fault is told of the element at `slot`. -/
def storeElement (m : Machine σ) (origin : Origin) (container position value : Value)
    (slot span : Span) : Machine σ :=
  match slotOf origin m.store container position with
  | .error fault => m.blame fault slot
  | .ok (ref, i) =>
    if m.store.contains value ref then m.blame .selfContaining slot
    else { m with control := .value (.null span), store := m.store.setSlot ref i value }

/-- Begins to store a value in a target, on behalf of the statement at
`span`. -/
def beginStore (m : Machine σ) (target : Expr) (value : Value) (env : Env) (span : Span) :
    Machine σ :=
  match target with
  | .ident id => { m with control := .value (.null span), store := m.store.assign env id.name value }
  | .index container position slot =>
    m.push (.storeLeft position value env slot span) (.expr container env)
  | other => m.blame .notAssignable other.span

/-! ### Functions -/

/-- Binds parameters to arguments. -/
def bindParams (env : Env) : List Ident → List Value → Store → Store
  | p :: ps, v :: vs, st => bindParams env ps vs (st.define env p.name v)
  | _, _, st => st

/-- Calls a function: its body runs in a scope inside the one where it was
made. -/
def apply (settings : Settings) (m : Machine σ) (callee : Value) (arguments : List Value)
    (span : Span) : Machine σ :=
  match callee with
  | .function ref _ =>
    let closure := m.store.closure ref
    let arity := closure.literal.params.length
    if arguments.length ≠ arity then m.blame (.wrongArity arity arguments.length) span
    else if settings.maxDepth ≤ m.depth then m.blame (.tooDeep settings.maxDepth) span
    else
      match m.store.enter closure.env with
      | (env, store) =>
        { m with
          control := .statements closure.literal.body.statements closure.literal.body.span env
          frames := .call span :: m.frames
          store := bindParams env closure.literal.params arguments store
          depth := m.depth + 1 }
  | other => m.blame (.notCallable other.kind) span

/-- Calls a built-in function of the host. -/
def applyBuiltin (host : Host σ) (m : Machine σ) (function : Builtin) (arguments : List Value)
    (span : Span) : Machine σ :=
  match host.builtin function arguments span m.store m.world with
  | (value, store, world) =>
    if function ≠ .giveBack ∧ value.kind = .returned then
      { m with control := .abort (.unexpectedReturn function span), store := store, world := world }
    else { m with control := .value value, store := store, world := world }

/-- Makes a function. -/
def makeFunction (m : Machine σ) (name : Option String) (literal : FunctionLit) (env : Env) :
    ClosureRef × Store :=
  m.store.newClosure ⟨name, literal, env⟩

/-- Makes what a list of values is for. -/
def deliver (host : Host σ) (settings : Settings) (m : Machine σ) (purpose : Purpose)
    (values : List Value) : Machine σ :=
  match purpose with
  | .array span =>
    match m.store.newArray values with
    | (ref, store) => { m with control := .value (.array ref span), store := store }
  | .call callee span => m.apply settings callee values span
  | .builtin function span => m.applyBuiltin host function values span

/-- Goes on with a list of expressions: evaluates the next one, or makes what
the values are for. -/
def collect (host : Host σ) (settings : Settings) (m : Machine σ) (purpose : Purpose)
    (done : List Value) (rest : List Expr) (env : Env) : Machine σ :=
  match rest with
  | e :: rest => m.push (.collect purpose done rest env) (.expr e env)
  | [] => m.deliver host settings purpose done.reverse

/-! ### Expressions -/

/-- Begins to evaluate an expression. -/
def beginExpr (host : Host σ) (settings : Settings) (m : Machine σ) (env : Env) :
    Expr → Machine σ
  | .ident id =>
    match m.store.get? env id.name with
    | some value => m.give value
    | none => m.blame (.undefined id.name) id.span
  | .int value span => m.give (.int value span)
  | .str text span => m.give (.str text span)
  | .absent span => m.give (.null span)
  | .array elements span => m.collect host settings (.array span) [] elements env
  | .prefixOp op operand span => m.push (.prefixOp op span) (.expr operand env)
  | .infixOp op left right span => m.push (.infixLeft op right env span) (.expr left env)
  | .index container position span => m.push (.indexLeft position env span) (.expr container env)
  | .call callee arguments span => m.push (.callee arguments env span) (.expr callee env)
  | .builtin function arguments span =>
    m.collect host settings (.builtin function span) [] arguments env
  | .function literal =>
    match m.makeFunction none literal env with
    | (ref, store) => { m with control := .value (.function ref literal.span), store := store }
  | .command command span =>
    match host.command command span m.store m.world with
    | (value, store, world) => { m with control := .value value, store := store, world := world }
  | .nested inner _ => { m with control := .expr inner env }

/-- The value of `かつ` and `または` where the left operand decides. -/
def decided? (op : Token) (left : Value) (span : Span) : Option Value :=
  match op, left with
  | .keyword .andWord, .bool false _ => some (.bool false span)
  | .keyword .orWord, .bool true _ => some (.bool true span)
  | _, _ => none

/-! ### Statements -/

/-- Begins to run a statement. -/
def beginStmt (m : Machine σ) (env : Env) : Stmt → Machine σ
  | .expr e => { m with control := .expr e env }
  | .assign target value span => m.push (.assign target env span) (.expr value env)
  | .conditional c => { m with control := .conditional c env }
  | .counted counter first last step direction body span =>
    m.push (.countFirst counter last step direction body span env) (.expr first env)
  | .whileLoop condition body span =>
    m.push (.whileTest condition body span env) (.expr condition env)
  | .untilLoop body condition span => m.pushBlock (.untilBody body condition span env) body env
  | .change target amount direction span =>
    m.push (.changeTarget target amount direction span env) (.expr target env)
  | .define name function span =>
    match m.makeFunction (some name.name) function env with
    | (ref, store) =>
      { m with
        control := .value (.null span)
        store := store.define env name.name (.function ref span) }
  | .giveBack value span => m.push (.giveBack span) (.expr value env)

/-- The operator by which a variable is changed. -/
def changeOp : Direction → Token
  | .increasing => .symbol .plus
  | .decreasing => .symbol .minus

/-! ### Counted loops -/

/-- Begins to count, if the bounds are integers and the step is positive. -/
def beginCount (m : Machine σ) (counter : Ident) (first last step : Value) (stepSpan : Span)
    (direction : Direction) (body : Block) (span : Span) (env : Env) : Machine σ :=
  match first, last, step with
  | .int _ _, .int last _, .int step _ =>
    if step ≤ 0 then m.blame .stepNotPositive stepSpan
    else
      { m with
        control := .count ⟨counter, last, step, direction, body, span, env⟩
        store := m.store.assign env counter.name first }
  | _, _, _ => m.blame (.loopBounds first.kind last.kind step.kind) span

/-- Runs the body once more, or ends the loop. -/
def count (m : Machine σ) (loop : Counting) : Machine σ :=
  match m.store.get? loop.env loop.counter.name with
  | some (.int current _) =>
    if loop.inRange current then m.pushBlock (.countBody loop current) loop.body loop.env
    else m.give (.null loop.span)
  | some other => m.blame (.loopCounter loop.counter.name other.kind) loop.counter.span
  | none => m.blame (.undefined loop.counter.name) loop.counter.span

/-- The value of the variable after the body ran: the body may have changed
it to another integer. -/
def counterAfter (m : Machine σ) (loop : Counting) (current : Int) : Int :=
  match m.store.get? loop.env loop.counter.name with
  | some (.int changed _) => changed
  | _ => current

/-- Counts on after the body ran; past the last integer the loop ends. -/
def countOn (m : Machine σ) (loop : Counting) (current : Int) : Machine σ :=
  match loop.after? (m.counterAfter loop current) with
  | some next =>
    { m with
      control := .count loop
      store := m.store.assign loop.env loop.counter.name (.int next loop.counter.span) }
  | none => m.give (.null loop.span)

/-! ### Frames -/

/-- Goes on with a conditional whose condition has a value. -/
def choose (m : Machine σ) (c : Conditional) (env : Env) : Value → Machine σ
  | .bool true _ => m.pushBlock (.settle c.span) c.consequence env
  | .bool false _ =>
    match c.alternative with
    | .missing => m.give (.null c.span)
    | .elseIf d => m.push (.settle c.span) (.conditional d env)
    | .otherwise b => m.pushBlock (.settle c.span) b env
  | other => m.blame (.condition other.kind) c.condition.span

/-- Hands a value that is no signal to a frame that was taken off the stack. -/
def resume (host : Host σ) (settings : Settings) (m : Machine σ) (v : Value) :
    Frame → Machine σ
  | .collect purpose done rest env => m.collect host settings purpose (v :: done) rest env
  | .prefixOp op span => m.give (applyPrefix op v span)
  | .infixLeft op right env span =>
    match decided? op v span with
    | some value => m.give value
    | none => m.push (.infixRight op v span) (.expr right env)
  | .infixRight op left span => m.give (applyInfix m.store op left v span)
  | .indexLeft position env span => m.push (.indexRight v span) (.expr position env)
  | .indexRight container span => m.give (fetch settings.origin m.store container v span)
  | .callee arguments env span => m.collect host settings (.call v span) [] arguments env
  | .call span => { m with control := .value (.null span), depth := m.depth - 1 }
  | .sequence rest span env => { m with control := .statements rest span env }
  | .program [] _ => m.give v
  | .program (s :: rest) env => m.push (.program rest env) (.stmt s env)
  | .assign target env span => m.beginStore target v env span
  | .storeLeft position value env slot span =>
    m.push (.storeRight v value slot span) (.expr position env)
  | .storeRight container value slot span =>
    m.storeElement settings.origin container v value slot span
  | .branch c env => m.choose c env v
  | .settle span => m.give (.null span)
  | .countFirst counter last step direction body span env =>
    m.push (.countLast counter v step direction body span env) (.expr last env)
  | .countLast counter first step direction body span env =>
    m.push (.countStep counter first v step.span direction body span env) (.expr step env)
  | .countStep counter first last stepSpan direction body span env =>
    m.beginCount counter first last v stepSpan direction body span env
  | .countBody loop current => m.countOn loop current
  | .whileTest condition body span env =>
    match v with
    | .bool true _ => m.pushBlock (.whileBody condition body span env) body env
    | .bool false _ => m.give (.null span)
    | other => m.blame (.condition other.kind) condition.span
  | .whileBody condition body span env =>
    m.push (.whileTest condition body span env) (.expr condition env)
  | .untilBody body condition span env =>
    m.push (.untilTest body condition span env) (.expr condition env)
  | .untilTest body condition span env =>
    match v with
    | .bool true _ => m.give (.null span)
    | .bool false _ => m.pushBlock (.untilBody body condition span env) body env
    | other => m.blame (.condition other.kind) condition.span
  | .changeTarget target amount direction span env =>
    m.push (.changeAmount target v direction span env) (.expr amount env)
  | .changeAmount target current direction span env =>
    let value := applyInfix m.store (changeOp direction) current v span
    if value.isSignal then m.give value else m.beginStore target value env span
  | .giveBack span => m.give (.returned v span)

/-- Hands a signal to a frame that was taken off the stack: the frame is left,
and a call that was waiting for a value gets it. -/
def unwind (m : Machine σ) (v : Value) : Frame → Machine σ
  | .call _ => { m with control := .value v.unwrap, depth := m.depth - 1 }
  | _ => m.give v

/-- Leaves a frame because of a failure. -/
def leave (m : Machine σ) : Frame → Machine σ
  | .call _ => { m with depth := m.depth - 1 }
  | _ => m

/-! ### One step -/

/-- Whether the machine has come to an end: there is a value or a failure, and
no frame is left. -/
def isHalted (m : Machine σ) : Bool :=
  match m.control with
  | .value _ | .abort _ => m.frames.isEmpty
  | _ => false

/-- One step.  A machine that has halted stays as it is. -/
def step (host : Host σ) (settings : Settings) (m : Machine σ) : Machine σ :=
  match m.control with
  | .expr e env => m.beginExpr host settings env e
  | .stmt s env => m.beginStmt env s
  | .statements [] span _ => m.give (.null span)
  | .statements (s :: rest) span env => m.push (.sequence rest span env) (.stmt s env)
  | .conditional c env => m.push (.branch c env) (.expr c.condition env)
  | .count loop => m.count loop
  | .value v =>
    match m.frames with
    | [] => m
    | f :: frames =>
      let below := { m with frames := frames }
      if v.isSignal then below.unwind v f else below.resume host settings v f
  | .abort _ =>
    match m.frames with
    | [] => m
    | f :: frames => leave { m with frames := frames } f

end Machine

end Dncl
