/-
Dncl/Proofs/Run.lean

Runs of the machine, and what a single step can do.

Design.  Every step works on a *base*: the machine as it is, or, when a value
or a failure is handed to a frame, the machine without that frame.  The values
that a step may use are *in hand*: the value that is handed over, if it is no
signal, and those that the frame has kept.  What it may use of the program is
what the machine *reaches*.  `Move` lists what can become of the base:

    step_move :  Move host settings m.inHand m.Reaches m.leavesCall m.base
                   (m.step host settings)

So a property of the store, of the frames, of the values or of the code of a
machine is kept by every step as soon as it is kept by each of these moves, and
the fifty cases of the evaluator are gone through only here.

`run` is iteration of `step` (`run_eq_iterate`): a machine that has halted
steps to itself.
-/
import Mathlib.Logic.Function.Iterate
import Dncl.Machine
import Dncl.Proofs.Parts

namespace Dncl

variable {a b container position v value : Value} {span : Span} {st : Store} {op : Token}

/-! ### Values that a machine holds -/

/-- Whether a value is whole in itself: it refers to nothing, and it is no
signal. -/
def Value.isPlain : Value → Bool
  | .int _ _ | .str _ _ | .bool _ _ | .null _ => true
  | _ => false

/-- Whether the fault is that an expression cannot be stored in. -/
def Fault.isRefusal : Fault → Bool
  | .notAssignable => true
  | _ => false

theorem Fault.span_valueAt (f : Fault) (span : Span) : (f.valueAt span).span = span := by
  rw [Fault.valueAt]
  split <;> rfl

/-- The values that a purpose has kept. -/
def Purpose.values : Purpose → List Value
  | .call callee _ => [callee]
  | .array _ | .builtin _ _ => []

namespace Frame

/-- The values that a frame has kept. -/
def values : Frame → List Value
  | collect purpose done _ _ => purpose.values ++ done
  | infixRight _ left _ => [left]
  | indexRight container _ => [container]
  | storeLeft _ value _ _ _ => [value]
  | storeRight container value _ _ => [container, value]
  | countLast _ first _ _ _ _ _ => [first]
  | countStep _ first last _ _ _ _ _ => [first, last]
  | changeAmount _ current _ _ _ => [current]
  | _ => []

/-- Whether the frame is that of a function which was called. -/
def isCall : Frame → Bool
  | call _ => true
  | _ => false

end Frame

/-- Whether there is something to do before a value or a failure is there. -/
def Control.isBusy : Control → Bool
  | .value _ | .abort _ => false
  | _ => true

namespace Machine

variable {σ : Type} {host : Host σ} {settings : Settings}

/-- The machine that a step works on. -/
def base (m : Machine σ) : Machine σ :=
  if m.control.isBusy then m else { m with frames := m.frames.tail }

theorem control_base (m : Machine σ) : m.base.control = m.control := by
  rw [base]
  split <;> rfl

theorem store_base (m : Machine σ) : m.base.store = m.store := by
  rw [base]
  split <;> rfl

/-- The values that a step may use.  With a signal nothing is done but to hand
it on. -/
def inHand (m : Machine σ) : List Value :=
  match m.control, m.frames with
  | .value v, f :: _ => if v.isSignal then [] else v :: f.values
  | _, _ => []

/-- Whether a step leaves a function that was called. -/
def leavesCall (m : Machine σ) : Bool :=
  !m.control.isBusy && m.frames.head?.any Frame.isCall

/-! ### Moves -/

/-- The results of an operator at a place. -/
inductive Computed (span : Span) : Value → Prop
  | plain {v : Value} : v.isPlain = true → v.span = span → Computed span v
  | fault {f : Fault} : f.isRefusal = false → Computed span (f.valueAt span)

/-- Where a value that is handed on comes from, other than from the host. -/
inductive Obtained (code : Part → Prop) (st : Store) (hand : List Value) : Value → Prop
  | plain {v : Value} : v.isPlain = true → Obtained code st hand v
  | computed {v : Value} {span : Span} : code (.place span) → Computed span v →
      Obtained code st hand v
  | refused {target : Expr} : code (.target target) → target.isAssignable = false →
      Obtained code st hand (Fault.notAssignable.valueAt target.span)
  | held {v : Value} : v ∈ hand → Obtained code st hand v
  | bound {v : Value} (env : Env) (name : String) :
      st.get? env name = some v → Obtained code st hand v
  | element {v : Value} (ref : ArrayRef) : v ∈ (st.elements ref).toList →
      Obtained code st hand v
  | returned {v : Value} (span : Span) : v ∈ hand → Obtained code st hand (.returned v span)

/-- A fault at a place that may be blamed. -/
theorem Obtained.fault {code : Part → Prop} {hand : List Value} {f : Fault}
    (hspan : code (.place span)) (hf : f.isRefusal = false) :
    Obtained code st hand (f.valueAt span) :=
  .computed hspan (.fault hf)

/-- The values that a frame may keep. -/
def Keepable (hand : List Value) (v : Value) : Prop :=
  v ∈ hand ∨ v.isPlain = true

/-- What a step can make of its base `m` with the values in `hand` and the parts
of `code`; the count of active functions goes down if a function is left. -/
inductive Move (host : Host σ) (settings : Settings) (hand : List Value) (code : Part → Prop)
    (left : Bool) (m : Machine σ) : Machine σ → Prop
  | give {v : Value} : Obtained code m.store hand v →
      Move host settings hand code left m (m.give v)
  | turn {c : Control} : c.isBusy = true → (∀ p ∈ c.parts, code p) →
      Move host settings hand code left m { m with control := c }
  | push {f : Frame} {c : Control} : f.isCall = false → (∀ v ∈ f.values, Keepable hand v) →
      c.isBusy = true → (∀ p ∈ f.parts ++ c.parts, code p) →
      Move host settings hand code left m (m.push f c)
  | pushBlock {f : Frame} (b : Block) (env : Env) : f.isCall = false → f.values = [] →
      (∀ p ∈ .node (.block b) :: f.parts, code p) →
      Move host settings hand code left m (m.pushBlock f b env)
  | assign {v : Value} {c : Control} (env : Env) (name : String) :
      Keepable hand v → (c.isBusy = true ∨ ∃ span, c = .value (.null span)) →
      (∀ p ∈ c.parts, code p) →
      Move host settings hand code left m
        { m with control := c, store := m.store.assign env name v }
  | setSlot {v : Value} (ref : ArrayRef) (slot : Nat) (span : Span) : v ∈ hand →
      (∃ s, .array ref s ∈ hand) → slot < (m.store.elements ref).size →
      m.store.contains v ref = false →
      Move host settings hand code left m
        { m with control := .value (.null span), store := m.store.setSlot ref slot v }
  | array {values : List Value} (span : Span) : (∀ v ∈ values, v ∈ hand) →
      Move host settings hand code left m
        { m with
          control := .value (.array (m.store.newArray values).1 span)
          store := (m.store.newArray values).2 }
  | function (closure : Closure) (span : Span) : code (.node (.function closure.literal)) →
      Move host settings hand code left m
        { m with
          control := .value (.function (m.store.newClosure closure).1 span)
          store := (m.store.newClosure closure).2 }
  | define (closure : Closure) (env : Env) (name : String) (span : Span) :
      code (.node (.function closure.literal)) →
      Move host settings hand code left m
        { m with
          control := .value (.null span)
          store := (m.store.newClosure closure).2.define env name
            (.function (m.store.newClosure closure).1 span) }
  | call {arguments : List Value} (ref : ClosureRef) (place span : Span) :
      .function ref place ∈ hand → (∀ v ∈ arguments, v ∈ hand) →
      arguments.length = (m.store.closure ref).literal.params.length →
      m.depth < settings.maxDepth →
      Move host settings hand code left m (m.apply settings (.function ref place) arguments span)
  | builtin {arguments : List Value} (function : Builtin) (span : Span) :
      (∀ v ∈ arguments, v ∈ hand) → code (.place span) →
      Move host settings hand code left m (m.applyBuiltin host function arguments span)
  | command (c : Command) (span : Span) : code (.place span) →
      Move host settings hand code left m
        { m with
          control := .value (host.command c span m.store m.world).1
          store := (host.command c span m.store m.world).2.1
          world := (host.command c span m.store m.world).2.2 }
  | pass {v : Value} : m.control = .value v → v.isSignal = true →
      Move host settings hand code left m m
  | leave (span : Span) : left = true →
      Move host settings hand code left m
        { m with control := .value (.null span), depth := m.depth - 1 }
  | unwrap {v : Value} : left = true → m.control = .value v → v.isSignal = true →
      Move host settings hand code left m
        { m with control := .value v.unwrap, depth := m.depth - 1 }
  | abort {failure : Fatal} : m.control = .abort failure →
      Move host settings hand code left m { m with depth := m.depth - left.toNat }

/-! ### Results of operators -/

theorem computed_exactly (n : Int) (span : Span) : Computed span (exactly n span) := by
  rw [exactly]
  split
  · exact .plain rfl rfl
  · exact .fault rfl

theorem computed_divided (a b result : Int) (span : Span) :
    Computed span (divided a b result span) := by
  rw [divided]
  split
  · exact .fault rfl
  · split
    · exact .plain rfl rfl
    · exact .fault rfl

theorem computed_intInfix {a b : Int} (h : intInfix? op a b span = some v) : Computed span v := by
  rw [intInfix?.eq_def] at h
  split at h <;> cases h
  all_goals first
    | exact computed_exactly _ _
    | exact computed_divided _ _ _ _
    | exact .plain rfl rfl

theorem computed_strInfix {a b : String} (h : strInfix? op a b span = some v) :
    Computed span v := by
  rw [strInfix?.eq_def] at h
  split at h <;> cases h
  all_goals exact .plain rfl rfl

theorem computed_boolInfix {a b : Bool} (h : boolInfix? op a b span = some v) :
    Computed span v := by
  rw [boolInfix?.eq_def] at h
  split at h <;> cases h
  all_goals exact .plain rfl rfl

theorem computed_anyInfix (h : anyInfix? st op a b span = some v) : Computed span v := by
  rw [anyInfix?.eq_def] at h
  split at h <;> cases h
  all_goals exact .plain rfl rfl

theorem computed_combine (h : combine? st op a b span = some v) : Computed span v := by
  rw [combine?.eq_def] at h
  split at h
  · exact computed_intInfix h
  · exact computed_strInfix h
  · split at h
    · cases h
      exact .plain rfl rfl
    · exact computed_anyInfix h
  · split at h
    · cases h
      exact .plain rfl rfl
    · exact computed_anyInfix h
  · exact computed_boolInfix h
  · exact computed_anyInfix h

theorem computed_applyInfix (st : Store) (op : Token) (a b : Value) (span : Span) :
    Computed span (applyInfix st op a b span) := by
  rw [applyInfix]
  rcases h : combine? st op a b span with - | v
  · exact .fault rfl
  · exact computed_combine h

theorem computed_applyPrefix (op : Token) (v : Value) (span : Span) :
    Computed span (applyPrefix op v span) := by
  rw [applyPrefix.eq_def]
  split
  · exact computed_exactly _ _
  · exact .plain rfl rfl
  · exact .plain rfl rfl
  · exact .fault rfl

/-- An operator puts its own span on its result. -/
theorem Computed.span_eq (h : Computed span v) : v.span = span := by
  cases h with
  | plain _ h => exact h
  | fault _ => exact Fault.span_valueAt _ _

theorem Computed.kind_ne (h : Computed span v) : v.kind ≠ .returned := by
  cases h with
  | plain h _ =>
    cases v with
    | returned => cases h
    | _ => exact Kind.noConfusion
  | fault _ =>
    rw [Fault.valueAt]
    split <;> exact Kind.noConfusion

/-- The value of a fault is a signal. -/
@[simp] theorem isSignal_valueAt (f : Fault) (span : Span) : (f.valueAt span).isSignal = true := by
  rw [Fault.valueAt]
  split <;> rfl

/-- A result that is no signal is whole in itself. -/
theorem Computed.isPlain (h : Computed span v) (hv : v.isSignal = false) : v.isPlain = true := by
  cases h with
  | plain h _ => exact h
  | fault _ =>
    rw [isSignal_valueAt] at hv
    cases hv

/-- A slot that was found lies in an array that was given. -/
theorem slotOf_eq_ok {origin : Origin} {ref : ArrayRef} {slot : Nat}
    (h : slotOf origin st container position = .ok (ref, slot)) :
    (∃ span, container = .array ref span) ∧ slot < (st.elements ref).size := by
  rw [slotOf.eq_def] at h
  split at h
  · split at h
    · simp only at h
      split at h
      · rename_i hslot
        obtain ⟨rfl, rfl⟩ := Prod.mk.inj (Except.ok.inj h)
        exact ⟨⟨_, rfl⟩, by omega⟩
      · cases h
    · cases h
  · cases h

theorem slotOf_eq_error {origin : Origin} {f : Fault}
    (h : slotOf origin st container position = .error f) : f.isRefusal = false := by
  rw [slotOf.eq_def] at h
  split at h
  · split at h
    · simp only at h
      split at h <;> cases h
      rfl
    · cases h
      rfl
  · cases h
    rfl

theorem obtained_fetch {code : Part → Prop} (origin : Origin) (st : Store) (hand : List Value)
    (container position : Value) (hspan : code (.place span)) :
    Obtained code st hand (fetch origin st container position span) := by
  rw [fetch]
  split
  · rename_i ref slot h
    obtain ⟨-, hslot⟩ := slotOf_eq_ok h
    apply Obtained.element ref
    rw [Array.getD_eq_getD_getElem?, Array.getElem?_eq_getElem hslot]
    exact Array.mem_toList_iff.2 (Array.getElem_mem hslot)
  · rename_i h
    exact .fault hspan (slotOf_eq_error h)

/-- A function that is applied with as many arguments as it has parameters,
and not too deep, runs its body on top of a frame for the call. -/
theorem apply_eq {m : Machine σ} {ref : ClosureRef} {place : Span} {arguments : List Value}
    (harity : arguments.length = (m.store.closure ref).literal.params.length)
    (hdepth : m.depth < settings.maxDepth) :
    m.apply settings (.function ref place) arguments span =
      { m with
        control := .statements (m.store.closure ref).literal.body.statements
          (m.store.closure ref).literal.body.span (m.store.enter (m.store.closure ref).env).1
        frames := .call span :: m.frames
        store := bindParams (m.store.enter (m.store.closure ref).env).1
          (m.store.closure ref).literal.params arguments
          (m.store.enter (m.store.closure ref).env).2
        depth := m.depth + 1 } := by
  rw [apply, if_neg (not_not_intro harity), if_neg (Nat.not_le_of_lt hdepth)]

/-! ### The parts of a step are moves -/

section Parts

variable {hand : List Value} {code : Part → Prop} {left : Bool} {m : Machine σ}

/-- A frame that keeps no value may always be pushed. -/
theorem move_push {f : Frame} {c : Control} {known : List Part} (hknown : ∀ p ∈ known, code p)
    (hf : f.isCall = false) (hv : f.values = []) (hc : c.isBusy = true)
    (hparts : f.parts ++ c.parts ⊆ known) :
    Move host settings hand code left m (m.push f c) := by
  refine .push hf ?_ hc fun p hp => hknown p (hparts hp)
  intro v h
  rw [hv] at h
  exact absurd h List.not_mem_nil

theorem move_pushBlock {f : Frame} {b : Block} {known : List Part}
    (hknown : ∀ p ∈ known, code p) (env : Env) (hf : f.isCall = false) (hv : f.values = [])
    (hparts : .node (.block b) :: f.parts ⊆ known) :
    Move host settings hand code left m (m.pushBlock f b env) :=
  .pushBlock b env hf hv fun p hp => hknown p (hparts hp)

theorem move_apply {callee : Value} {arguments : List Value} (hspan : code (.place span))
    (hc : callee ∈ hand) (ha : ∀ v ∈ arguments, v ∈ hand) :
    Move host settings hand code left m (m.apply settings callee arguments span) := by
  cases callee with
  | function ref place =>
    by_cases harity : arguments.length = (m.store.closure ref).literal.params.length
    · by_cases hdepth : m.depth < settings.maxDepth
      · exact .call ref place span hc ha harity hdepth
      · rw [apply, if_neg (not_not_intro harity), if_pos (Nat.le_of_not_lt hdepth)]
        exact .give (.fault hspan rfl)
    · rw [apply, if_pos harity]
      exact .give (.fault hspan rfl)
  | _ => exact .give (.fault hspan rfl)

theorem move_deliver {purpose : Purpose} {values : List Value}
    (hparts : ∀ p ∈ purpose.parts, code p) (hp : ∀ v ∈ purpose.values, v ∈ hand)
    (hv : ∀ v ∈ values, v ∈ hand) :
    Move host settings hand code left m (m.deliver host settings purpose values) := by
  cases purpose with
  | array span => exact .array span hv
  | call callee span =>
    exact move_apply (hparts _ List.mem_cons_self) (hp callee (List.mem_singleton_self _)) hv
  | builtin function span => exact .builtin function span hv (hparts _ List.mem_cons_self)

theorem move_collect {purpose : Purpose} {done : List Value} {rest : List Expr} (env : Env)
    (hparts : ∀ p ∈ purpose.parts ++ (rest.map .expr).map .node, code p)
    (hp : ∀ v ∈ purpose.values, v ∈ hand) (hd : ∀ v ∈ done, v ∈ hand) :
    Move host settings hand code left m (m.collect host settings purpose done rest env) := by
  cases rest with
  | nil =>
    refine move_deliver (fun p hmem => hparts p (List.mem_append_left _ hmem)) hp ?_
    intro v hv
    exact hd v (List.mem_reverse.1 hv)
  | cons e rest =>
    have hsub : (Frame.collect purpose done rest env).parts ++ (Control.expr e env).parts ⊆
        purpose.parts ++ ((e :: rest).map .expr).map .node := by simp
    refine .push rfl ?_ rfl fun p hmem => hparts p (hsub hmem)
    intro v hv
    rcases List.mem_append.1 hv with h | h
    · exact .inl (hp v h)
    · exact .inl (hd v h)

theorem move_beginExpr (env : Env) {e : Expr}
    (he : ∀ p ∈ Part.parts (.node (.expr e)), code p) :
    Move host settings hand code left m (m.beginExpr host settings env e) := by
  have none_kept : ∀ v ∈ ([] : List Value), v ∈ hand := fun v hv => absurd hv List.not_mem_nil
  have hspan : code (.place e.span) := he _ List.mem_cons_self
  cases e with
  | ident id =>
    rw [beginExpr]
    split
    · exact .give (.bound env id.name ‹_›)
    · exact .give (.fault hspan rfl)
  | int value span => exact .give (.plain rfl)
  | str text span => exact .give (.plain rfl)
  | absent span => exact .give (.plain rfl)
  | array elements span =>
    refine move_collect env ?_ none_kept none_kept
    exact fun p hp => he p (List.mem_cons_of_mem _ hp)
  | prefixOp op operand span => exact move_push he rfl rfl rfl (by simp [Expr.span])
  | infixOp op left right span => exact move_push he rfl rfl rfl (by simp [Expr.span])
  | index container position span => exact move_push he rfl rfl rfl (by simp [Expr.span])
  | call callee arguments span => exact move_push he rfl rfl rfl (by simp [Expr.span])
  | builtin function arguments span => exact move_collect env he none_kept none_kept
  | function literal =>
    exact .function ⟨none, literal, env⟩ literal.span (he _ (List.mem_cons_of_mem _ (by simp)))
  | command c span => exact .command c span hspan
  | nested inner span => exact .turn rfl fun p hp => he p (List.mem_cons_of_mem _ hp)

theorem move_beginStmt (env : Env) {s : Stmt}
    (hs : ∀ p ∈ Part.parts (.node (.stmt s)), code p) :
    Move host settings hand code left m (m.beginStmt env s) := by
  cases s with
  | expr e => exact .turn rfl fun p hp => hs p (List.mem_cons_of_mem _ hp)
  | assign target value span => exact move_push hs rfl rfl rfl (by simp)
  | conditional c => exact .turn rfl fun p hp => hs p (List.mem_cons_of_mem _ hp)
  | counted counter first last step direction body span =>
    exact move_push hs rfl rfl rfl (by simp [Stmt.span])
  | whileLoop condition body span => exact move_push hs rfl rfl rfl (by simp)
  | untilLoop body condition span => exact move_pushBlock hs env rfl rfl (by simp)
  | change target amount direction span => exact move_push hs rfl rfl rfl (by simp [Stmt.span])
  | define name function span =>
    exact .define ⟨some name.name, function, env⟩ env name.name span (hs _ (by simp))
  | giveBack value span => exact move_push hs rfl rfl rfl (by simp)

theorem move_storeElement (origin : Origin) (position : Value) {slot : Span} (span : Span)
    (hslot : code (.place slot)) (hc : container ∈ hand) (hv : value ∈ hand) :
    Move host settings hand code left m
      (m.storeElement origin container position value slot span) := by
  rw [storeElement]
  split
  · rename_i h
    exact .give (.fault hslot (slotOf_eq_error h))
  · rename_i ref i h
    obtain ⟨⟨place, rfl⟩, hi⟩ := slotOf_eq_ok h
    split
    · exact .give (.fault hslot rfl)
    · rename_i hself
      exact .setSlot ref i span hv ⟨place, hc⟩ hi (Bool.eq_false_iff.2 hself)

theorem move_beginStore {target : Expr} (env : Env) (span : Span) (htarget : code (.target target))
    (hparts : ∀ p ∈ Part.parts (.node (.expr target)), code p) (hv : Keepable hand value) :
    Move host settings hand code left m (m.beginStore target value env span) := by
  cases target with
  | ident id => exact .assign env id.name hv (.inr ⟨span, rfl⟩) nofun
  | index container position slot =>
    have hsub : (Frame.storeLeft position value env slot span).parts ++
        (Control.expr container env).parts ⊆
          Part.parts (.node (.expr (.index container position slot))) := by simp [Expr.span]
    refine .push rfl ?_ rfl fun p hp => hparts p (hsub hp)
    intro v h
    rw [List.mem_singleton.1 h]
    exact hv
  | _ => exact .give (.refused htarget rfl)

theorem move_beginCount {first : Value} {counter : Ident} (last step : Value) {stepSpan : Span}
    (direction : Direction) {body : Block} (env : Env)
    (hparts : ∀ p ∈ (Frame.countStep counter first last stepSpan direction body span env).parts,
      code p) (hf : first ∈ hand) :
    Move host settings hand code left m
      (m.beginCount counter first last step stepSpan direction body span env) := by
  rw [beginCount.eq_def]
  split
  · split
    · exact .give (.fault (hparts _ (by simp)) rfl)
    · refine .assign env counter.name (.inl hf) (.inl rfl) fun p hp => hparts p ?_
      exact List.mem_cons_of_mem _ ((List.cons_subset_cons _ (List.subset_cons_self _ _)) hp)
  · exact .give (.fault (hparts _ (by simp)) rfl)

theorem move_count {loop : Counting} (hparts : ∀ p ∈ loop.parts, code p)
    (hcounter : code (.place loop.counter.span)) :
    Move host settings hand code left m (m.count loop) := by
  rw [count]
  split
  · split
    · exact move_pushBlock hparts loop.env rfl rfl (by simp)
    · exact .give (.plain rfl)
  · exact .give (.fault hcounter rfl)
  · exact .give (.fault hcounter rfl)

theorem move_countOn {loop : Counting} (current : Int) (hparts : ∀ p ∈ loop.parts, code p) :
    Move host settings hand code left m (m.countOn loop current) := by
  rw [countOn]
  split
  · exact .assign loop.env loop.counter.name (.inr rfl) (.inl rfl) hparts
  · exact .give (.plain rfl)

theorem move_choose {c : Conditional} (env : Env) (v : Value)
    (hparts : ∀ p ∈ Part.parts (.node (.conditional c)), code p)
    (hcondition : code (.place c.condition.span)) :
    Move host settings hand code left m (m.choose c env v) := by
  obtain ⟨condition, consequence, alternative, span⟩ := c
  rw [choose.eq_def]
  split
  · exact move_pushBlock hparts env rfl rfl (by simp)
  · cases alternative with
    | missing => exact .give (.plain rfl)
    | elseIf d => exact move_push hparts rfl rfl rfl (by simp)
    | otherwise b => exact move_pushBlock hparts env rfl rfl (by simp)
  · exact .give (.fault hcondition rfl)

/-- A value goes on with a frame: one case for each frame. -/
theorem move_resume (closed : ∀ p q, code p → q ∈ p.parts → code q) (v : Value) {f : Frame}
    (hparts : ∀ p ∈ f.parts, code p) :
    Move host settings (v :: f.values) code f.isCall m (m.resume host settings v f) := by
  have held : v ∈ v :: f.values := List.mem_cons_self
  have kept : ∀ w ∈ [v], w ∈ v :: f.values := by
    intro w hw
    rw [List.mem_singleton.1 hw]
    exact held
  -- what waits on a frame is the value that came, or was there before
  have kept_here : ∀ w ∈ [v], Keepable (v :: f.values) w := fun w hw => .inl (kept w hw)
  have none_kept : ∀ w ∈ ([] : List Value), w ∈ v :: f.values :=
    fun w hw => absurd hw List.not_mem_nil
  have of_node : ∀ n, .node n ∈ f.parts → ∀ p ∈ Part.parts (.node n), code p :=
    fun n hn p hp => closed _ p (hparts _ hn) hp
  have known : ∀ {ps : List Part}, ps ⊆ f.parts → ∀ p ∈ ps, code p :=
    fun hsub p hp => hparts p (hsub hp)
  cases f with
  | collect purpose done rest env =>
    refine move_collect env hparts ?_ ?_
    · intro w hw
      exact List.mem_cons_of_mem _ (List.mem_append_left _ hw)
    · intro w hw
      rcases List.mem_cons.1 hw with rfl | hw
      · exact held
      · exact List.mem_cons_of_mem _ (List.mem_append_right _ hw)
  | prefixOp op span =>
    exact .give (.computed (hparts _ List.mem_cons_self) (computed_applyPrefix _ _ _))
  | infixLeft op right env span =>
    rw [resume]
    split
    · rename_i w h
      rw [decided?.eq_def] at h
      split at h <;> cases h
      all_goals exact .give (.plain rfl)
    · exact .push rfl kept_here rfl (known (by simp))
  | infixRight op left span =>
    exact .give (.computed (hparts _ List.mem_cons_self) (computed_applyInfix _ _ _ _ _))
  | indexLeft position env span => exact .push rfl kept_here rfl (known (by simp))
  | indexRight container span =>
    exact .give (obtained_fetch _ _ _ _ _ (hparts _ List.mem_cons_self))
  | callee arguments env span => exact move_collect env hparts kept none_kept
  | call span => exact .leave span rfl
  | sequence rest span env => exact .turn rfl hparts
  | program rest env =>
    cases rest with
    | nil => exact .give (.held held)
    | cons s rest => exact move_push hparts rfl rfl rfl (by simp)
  | assign target env span =>
    exact move_beginStore env span (hparts _ (by simp)) (of_node _ (by simp)) (.inl held)
  | storeLeft position value env slot span =>
    refine .push rfl ?_ rfl (known (by simp))
    intro w hw
    exact .inl hw
  | storeRight container value slot span =>
    exact move_storeElement settings.origin v span (hparts _ List.mem_cons_self)
      (List.mem_cons_of_mem _ List.mem_cons_self)
      (List.mem_cons_of_mem _ (List.mem_cons_of_mem _ List.mem_cons_self))
  | branch c env =>
    have hc := of_node (.conditional c) (by simp)
    exact move_choose env v hc (closed _ _ (hc (.node (.expr c.condition)) (by simp)) (by simp))
  | settle span => exact .give (.plain rfl)
  | countFirst counter last step direction body span env =>
    exact .push rfl kept_here rfl (known (by simp))
  | countLast counter first step direction body span env =>
    have hstep : code (.place step.span) := of_node (.expr step) (by simp) _ (by simp)
    refine .push rfl ?_ rfl ?_
    · intro w hw
      rcases List.mem_cons.1 hw with rfl | hw
      · exact .inl (List.mem_cons_of_mem _ List.mem_cons_self)
      · exact kept_here w hw
    · -- the next frame keeps the place of the step
      simp only [Frame.parts, Control.parts] at hparts ⊢
      grind
  | countStep counter first last stepSpan direction body span env =>
    exact move_beginCount last v direction env hparts (List.mem_cons_of_mem _ List.mem_cons_self)
  | countBody loop current => exact move_countOn current hparts
  | whileTest condition body span env =>
    rw [resume.eq_def]
    simp only
    split
    · exact move_pushBlock hparts env rfl rfl (by simp)
    · exact .give (.plain rfl)
    · exact .give (.fault (of_node (.expr condition) (by simp) _ (by simp)) rfl)
  | whileBody condition body span env => exact move_push hparts rfl rfl rfl (by simp)
  | untilBody body condition span env => exact move_push hparts rfl rfl rfl (by simp)
  | untilTest body condition span env =>
    rw [resume.eq_def]
    simp only
    split
    · exact .give (.plain rfl)
    · exact move_pushBlock hparts env rfl rfl (by simp)
    · exact .give (.fault (of_node (.expr condition) (by simp) _ (by simp)) rfl)
  | changeTarget target amount direction span env =>
    exact .push rfl kept_here rfl (known (by simp))
  | changeAmount target current direction span env =>
    rw [resume]
    have hresult := computed_applyInfix m.store (changeOp direction) current v span
    split
    · exact .give (.computed (hparts _ List.mem_cons_self) hresult)
    · rename_i hsignal
      -- a result that is no signal is plain, whichever operator computed it
      exact move_beginStore env span (hparts _ (by simp)) (of_node _ (by simp))
        (.inr (hresult.isPlain (Bool.eq_false_iff.2 hsignal)))
  | giveBack span => exact .give (.returned span held)

theorem move_unwind (hc : m.control = .value v) (hv : v.isSignal = true) (f : Frame) :
    Move host settings hand code f.isCall m (m.unwind v f) := by
  -- a signal that is handed on leaves the base as it is
  have hsame : m.give v = m := by
    rw [give, ← hc]
  cases f with
  | call span => exact .unwrap rfl hc hv
  | _ =>
    rw [unwind, hsame]
    · exact .pass hc hv
    · exact fun _ => Frame.noConfusion

end Parts

/-- **What a step can do**: a machine that has not halted makes one of the
moves with its base and the values in hand. -/
theorem step_move (m : Machine σ) (h : m.isHalted = false) :
    Move host settings m.inHand m.Reaches m.leavesCall m.base (m.step host settings) := by
  obtain ⟨control, frames, store, depth, world⟩ := m
  cases control with
  | expr e env => exact move_beginExpr env fun p hp => .part (.control List.mem_cons_self) hp
  | stmt s env => exact move_beginStmt env fun p hp => .part (.control List.mem_cons_self) hp
  | statements rest span env =>
    cases rest with
    | nil => exact .give (.plain rfl)
    | cons s rest => exact move_push (fun p hp => .control hp) rfl rfl rfl (by simp)
  | conditional c env =>
    refine .push rfl nofun rfl ?_
    rintro p (- | ⟨_, - | ⟨_, ⟨⟩⟩⟩)
    · exact .control List.mem_cons_self
    · exact .part (.control List.mem_cons_self) List.mem_cons_self
  | count loop =>
    exact move_count (fun p hp => .control hp) (.part (.control List.mem_cons_self) (by simp))
  | value v =>
    cases frames with
    | nil => exact absurd h (by simp [isHalted])
    | cons f frames =>
      rw [step]
      simp only [inHand]
      split
      · exact move_unwind rfl ‹_› f
      · exact move_resume (fun _ _ => .part) v fun p hp => .frame List.mem_cons_self hp
  | abort failure =>
    cases frames with
    | nil => exact absurd h (by simp [isHalted])
    | cons f frames =>
      cases f with
      | call span => exact .abort rfl
      | _ => exact .abort rfl

/-! ### Runs -/

/-- There is something to do, or a frame that waits. -/
theorem isHalted_eq_false_iff {m : Machine σ} :
    m.isHalted = false ↔ m.control.isBusy = true ∨ m.frames ≠ [] := by
  obtain ⟨control, frames, store, depth, world⟩ := m
  cases control <;> simp [isHalted, Control.isBusy]

theorem step_of_isHalted {m : Machine σ} (h : m.isHalted = true) : m.step host settings = m := by
  obtain ⟨control, frames, store, depth, world⟩ := m
  cases control with
  | value v =>
    cases frames with
    | nil => rfl
    | cons f frames => exact absurd h (by simp [isHalted])
  | abort failure =>
    cases frames with
    | nil => rfl
    | cons f frames => exact absurd h (by simp [isHalted])
  | _ => exact absurd h (by simp [isHalted])

theorem run_eq_iterate (n : Nat) (m : Machine σ) :
    m.run host settings n = (step host settings)^[n] m := by
  induction n generalizing m with
  | zero => rfl
  | succ n ih =>
    rw [run]
    split
    · rename_i hm
      exact (Function.iterate_fixed (step_of_isHalted hm) (n + 1)).symm
    · exact ih _

theorem run_add (a b : Nat) (m : Machine σ) :
    m.run host settings (a + b) = (m.run host settings a).run host settings b := by
  rw [run_eq_iterate, run_eq_iterate, run_eq_iterate, Nat.add_comm, Function.iterate_add_apply]

theorem run_succ (n : Nat) (m : Machine σ) :
    m.run host settings (n + 1) = (m.run host settings n).step host settings := by
  rw [run_eq_iterate, run_eq_iterate, Function.iterate_succ_apply']

/-- A machine that has halted stays as it is. -/
theorem run_of_isHalted {m : Machine σ} (h : m.isHalted = true) (n : Nat) :
    m.run host settings n = m := by
  rw [run_eq_iterate]
  exact Function.iterate_fixed (step_of_isHalted h) n

/-- What every move keeps holds all along a run. -/
theorem run_invariant {P : Machine σ → Prop}
    (hmove : ∀ m m', P m → m.isHalted = false →
      Move host settings m.inHand m.Reaches m.leavesCall m.base m' → P m')
    {m : Machine σ} (hm : P m) (n : Nat) : P (m.run host settings n) := by
  induction n with
  | zero => exact hm
  | succ n ih =>
    rw [run_succ]
    cases hhalt : (m.run host settings n).isHalted with
    | true =>
      rw [step_of_isHalted hhalt]
      exact ih
    | false => exact hmove _ _ ih hhalt (step_move _ hhalt)

end Machine

end Dncl
