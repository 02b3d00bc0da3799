/-
Dncl/Proofs/Evaluation.lean

What phrases come to.

The machine runs a phrase above the frames of everything around it.  Here a
phrase is run by itself, above no frame at all, and what it comes to is a relation
between states:

    c.Yields host settings d s v s'

says that with `d` active functions the control `c` comes to the value `v`, and
turns the state `s` into `s'`.

Design.  A step never looks at a frame other than the topmost one, so frames may be
put below (`step_above`).  Hence a phrase inside another one can be split off:

    ends_frame :  a phrase with a frame `f` above it ends exactly if the phrase
                  comes to a value and `f` goes on from there.

Every rule of evaluation, for an expression or for a statement, follows from it by
taking the phrase apart.  Where several expressions are evaluated one after the
other, `Evaluated` and `Interrupted` list them in this order.
-/
import Mathlib.Data.Nat.Find
import Dncl.Proofs.Range

namespace Dncl

/-- What is left when a phrase has come to a value: the store and the state of the
host. -/
structure State (σ : Type) where
  store : Store
  world : σ

/-- A machine with nothing to do but `c`, and `d` active functions. -/
def State.start {σ : Type} (s : State σ) (c : Control) (d : Nat) : Machine σ :=
  ⟨c, [], s.store, d, s.world⟩

namespace Machine

variable {σ : Type} {host : Host σ} {settings : Settings}

/-! ### Frames below -/

/-- The machine with more frames below its own. -/
def above (m : Machine σ) (below : List Frame) : Machine σ :=
  { m with frames := m.frames ++ below }

section Above

variable (m : Machine σ) (below : List Frame)

theorem store_above : (m.above below).store = m.store :=
  rfl

theorem ite_above (p : Prop) [Decidable p] (a b : Machine σ) :
    (if p then a else b).above below = if p then a.above below else b.above below :=
  apply_ite (fun m => above m below) p a b

theorem apply_above (callee : Value) (arguments : List Value) (span : Span) :
    (m.above below).apply settings callee arguments span =
      (m.apply settings callee arguments span).above below := by
  cases callee with
  | function ref place =>
    simp only [apply, ite_above]
    rfl
  | _ => rfl

theorem applyBuiltin_above (function : Builtin) (arguments : List Value) (span : Span) :
    (m.above below).applyBuiltin host function arguments span =
      (m.applyBuiltin host function arguments span).above below := by
  simp only [applyBuiltin, ite_above]
  rfl

theorem deliver_above (purpose : Purpose) (values : List Value) :
    (m.above below).deliver host settings purpose values =
      (m.deliver host settings purpose values).above below := by
  cases purpose with
  | array span => rfl
  | call callee span => exact apply_above m below callee values span
  | builtin function span => exact applyBuiltin_above m below function values span

theorem collect_above (purpose : Purpose) (done : List Value) (rest : List Expr) (env : Env) :
    (m.above below).collect host settings purpose done rest env =
      (m.collect host settings purpose done rest env).above below := by
  cases rest with
  | nil => exact deliver_above m below purpose done.reverse
  | cons e rest => rfl

theorem beginExpr_above (env : Env) (e : Expr) :
    (m.above below).beginExpr host settings env e =
      (m.beginExpr host settings env e).above below := by
  cases e with
  | ident id =>
    simp only [beginExpr, store_above]
    split <;> rfl
  | array elements span => exact collect_above m below (.array span) [] elements env
  | builtin function arguments span =>
    exact collect_above m below (.builtin function span) [] arguments env
  | _ => rfl

theorem beginStmt_above (env : Env) (s : Stmt) :
    (m.above below).beginStmt env s = (m.beginStmt env s).above below := by
  cases s <;> rfl

theorem storeElement_above (origin : Origin) (container position value : Value)
    (slot span : Span) :
    (m.above below).storeElement origin container position value slot span =
      (m.storeElement origin container position value slot span).above below := by
  simp only [storeElement, store_above]
  split
  · rfl
  · rw [ite_above]
    rfl

theorem beginStore_above (target : Expr) (value : Value) (env : Env) (span : Span) :
    (m.above below).beginStore target value env span =
      (m.beginStore target value env span).above below := by
  cases target <;> rfl

theorem beginCount_above (counter : Ident) (first last step : Value) (stepSpan : Span)
    (direction : Direction) (body : Block) (span : Span) (env : Env) :
    (m.above below).beginCount counter first last step stepSpan direction body span env =
      (m.beginCount counter first last step stepSpan direction body span env).above below := by
  simp only [beginCount.eq_def]
  split
  · rw [ite_above]
    rfl
  · rfl

theorem count_above (loop : Counting) :
    (m.above below).count loop = (m.count loop).above below := by
  simp only [count, store_above]
  split
  · rw [ite_above]
    rfl
  · rfl
  · rfl

theorem countOn_above (loop : Counting) (current : Int) :
    (m.above below).countOn loop current = (m.countOn loop current).above below := by
  simp only [countOn, counterAfter, store_above]
  split <;> rfl

theorem choose_above (c : Conditional) (env : Env) (v : Value) :
    (m.above below).choose c env v = (m.choose c env v).above below := by
  simp only [choose.eq_def]
  split
  · rfl
  · split <;> rfl
  · rfl

/-- A value goes on with a frame in the same way above other frames. -/
theorem resume_above (v : Value) (f : Frame) :
    (m.above below).resume host settings v f = (m.resume host settings v f).above below := by
  cases f with
  | collect purpose done rest env => exact collect_above m below purpose (v :: done) rest env
  | callee arguments env span => exact collect_above m below (.call v span) [] arguments env
  | infixLeft op right env span =>
    simp only [resume]
    split <;> rfl
  | program rest env => cases rest <;> rfl
  | assign target env span => exact beginStore_above m below target v env span
  | storeRight container value slot span =>
    exact storeElement_above m below settings.origin container v value slot span
  | branch c env => exact choose_above m below c env v
  | countStep counter first last stepSpan direction body span env =>
    exact beginCount_above m below counter first last v stepSpan direction body span env
  | countBody loop current => exact countOn_above m below loop current
  | whileTest condition body span env =>
    simp only [resume.eq_def]
    split <;> rfl
  | untilTest body condition span env =>
    simp only [resume.eq_def]
    split <;> rfl
  | changeAmount target current direction span env =>
    -- the sum is computed first, then stored or given back
    simp only [resume, store_above, ite_above, beginStore_above]
    rfl
  | _ => rfl

/-- A machine that has not halted does not see the frames below its own. -/
theorem step_above (h : m.isHalted = false) :
    (m.above below).step host settings = (m.step host settings).above below := by
  obtain ⟨control, frames, store, depth, world⟩ := m
  cases control with
  | expr e env => exact beginExpr_above _ below env e
  | stmt s env => exact beginStmt_above _ below env s
  | statements rest span env => cases rest <;> rfl
  | conditional c env => rfl
  | count loop => exact count_above _ below loop
  | value v =>
    cases frames with
    | nil => cases h
    | cons f frames =>
      simp only [step, above, List.cons_append]
      split
      · cases f <;> rfl
      · exact resume_above ⟨.value v, frames, store, depth, world⟩ below v f
  | abort failure =>
    cases frames with
    | nil => cases h
    | cons f frames => cases f <;> rfl

theorem run_above {n : Nat} (h : ∀ j < n, (m.run host settings j).isHalted = false) :
    (m.above below).run host settings n = (m.run host settings n).above below := by
  induction n with
  | zero => rfl
  | succ n ih =>
    rw [run_succ, run_succ, ih fun j hj => h j (Nat.lt_succ_of_lt hj)]
    exact step_above _ below (h n (Nat.lt_succ_self n))

end Above

/-! ### Machines that end -/

/-- The machine ends with the value `v`, `d` active functions and the state `s`. -/
def Ends (host : Host σ) (settings : Settings) (d : Nat) (m : Machine σ) (v : Value)
    (s : State σ) : Prop :=
  ∃ n, m.run host settings n = s.start (.value v) d

variable {d : Nat} {m : Machine σ} {v : Value} {s : State σ}

theorem ends_value {w : Value} {t : State σ} :
    (t.start (.value w) d).Ends host settings d v s ↔ v = w ∧ s = t := by
  constructor
  · rintro ⟨n, hn⟩
    rw [run_of_isHalted rfl] at hn
    injection hn with hcontrol _ hstore _ hworld
    injection hcontrol with hvalue
    obtain ⟨store, world⟩ := s
    obtain ⟨store', world'⟩ := t
    obtain rfl : store' = store := hstore
    obtain rfl : world' = world := hworld
    exact ⟨hvalue.symm, rfl⟩
  · rintro ⟨rfl, rfl⟩
    exact ⟨0, rfl⟩

/-- Whether a machine ends can be seen after any number of steps. -/
theorem ends_run (n : Nat) :
    (m.run host settings n).Ends host settings d v s ↔ m.Ends host settings d v s := by
  constructor
  · rintro ⟨k, hk⟩
    exact ⟨n + k, by rw [run_add, hk]⟩
  · rintro ⟨k, hk⟩
    refine ⟨k, ?_⟩
    rw [← run_add, Nat.add_comm, run_add, hk]
    exact run_of_isHalted rfl n

theorem ends_step :
    (m.step host settings).Ends host settings d v s ↔ m.Ends host settings d v s := by
  have hrun : m.run host settings 1 = m.step host settings := run_succ_of_step m 0
  rw [← hrun]
  exact ends_run 1

/-- A machine ends in one way only. -/
theorem Ends.unique {v' : Value} {s' : State σ} (h : m.Ends host settings d v s)
    (h' : m.Ends host settings d v' s') : v = v' ∧ s = s' := by
  obtain ⟨n, hn⟩ := h
  rw [← ends_run n, hn] at h'
  obtain ⟨hv, hs⟩ := ends_value.1 h'
  exact ⟨hv.symm, hs.symm⟩

/-- After a failure there is no value. -/
theorem not_ends_of_abort {failure : Fatal} (h : m.control = .abort failure) :
    ¬ m.Ends host settings d v s := by
  have hstays : ∀ n, (m.run host settings n).control = .abort failure := by
    intro n
    induction n with
    | zero => exact h
    | succ n ih =>
      rw [run_succ]
      generalize m.run host settings n = m at ih ⊢
      obtain ⟨control, frames, store, depth, world⟩ := m
      obtain rfl : control = .abort failure := ih
      cases frames with
      | nil => rfl
      | cons f frames => cases f <;> rfl
  rintro ⟨n, hn⟩
  have hcontrol := hstays n
  rw [hn] at hcontrol
  cases hcontrol

end Machine

/-! ### What phrases come to -/

namespace Control

variable {σ : Type} {host : Host σ} {settings : Settings} {d : Nat} {c : Control} {v : Value}
  {s s' : State σ}

/-- With `d` active functions, `c` comes to the value `v` and turns the state `s`
into `s'`. -/
def Yields (host : Host σ) (settings : Settings) (d : Nat) (c : Control) (s : State σ) (v : Value)
    (s' : State σ) : Prop :=
  (s.start c d).Ends host settings d v s'

theorem Yields.unique {v' : Value} {s'' : State σ} (h : c.Yields host settings d s v s')
    (h' : c.Yields host settings d s v' s'') : v = v' ∧ s' = s'' :=
  Machine.Ends.unique h h'

/-- What has halted has come to a value or to a failure, and no function is active
that was not active at first. -/
theorem halted_cases {n : Nat} (h : ((s.start c d).run host settings n).isHalted = true) :
    (∃ u s₁, (s.start c d).run host settings n = State.start s₁ (.value u) d) ∨
      ∃ failure, ((s.start c d).run host settings n).control = .abort failure := by
  have htallied : Machine.Tallied settings [] d ((s.start c d).run host settings n) :=
    (Machine.tallied_self (s.start c d)).run n
  have hdepth := htallied.depth_of_isHalted h
  generalize (s.start c d).run host settings n = m at h hdepth
  obtain ⟨control, frames, store, depth, world⟩ := m
  obtain rfl : depth = d := hdepth
  cases control with
  | value u =>
    obtain rfl : frames = [] := List.isEmpty_iff.1 h
    exact .inl ⟨u, ⟨store, world⟩, rfl⟩
  | abort failure => exact .inr ⟨failure, rfl⟩
  | _ => cases h

/-- What comes to a halt does so above any frames. -/
theorem exists_run_above {n : Nat} (h : ((s.start c d).run host settings n).isHalted = true)
    (fs : List Frame) :
    ∃ k, ((s.start c d).above fs).run host settings k =
      ((s.start c d).run host settings n).above fs := by
  -- up to the first halt the frames below are not seen
  have hhalts : ∃ k, ((s.start c d).run host settings k).isHalted = true := ⟨n, h⟩
  refine ⟨Nat.find hhalts, ?_⟩
  rw [Machine.run_above _ fs fun j hj => Bool.eq_false_iff.2 (Nat.find_min hhalts hj),
    Machine.run_eq_of_isHalted (Nat.find_spec hhalts) h]

/-- What comes to a value is not left before. -/
theorem Yields.exists_inside (h : c.Yields host settings d s v s') :
    ∃ n, (s.start c d).Inside host settings n ∧
      (s.start c d).run host settings n = s'.start (.value v) d := by
  obtain ⟨k, hk⟩ := h
  have hhalts : ∃ n, ((s.start c d).run host settings n).isHalted = true := ⟨k, by rw [hk]; rfl⟩
  refine ⟨Nat.find hhalts, fun j hj => ?_, ?_⟩
  · have hgoes := Bool.eq_false_iff.2 (Nat.find_min hhalts hj)
    exact (Machine.isHalted_eq_false_iff.1 hgoes).imp_right List.length_pos_iff.2
  · rw [← hk]
    exact Machine.run_eq_of_isHalted (Nat.find_spec hhalts) (by rw [hk]; rfl)

/-- An expression binds no name in the scopes that were there. -/
theorem Yields.keepsNames (hhost : host.KeepsNames) {e : Expr} {env : Env}
    (h : (Control.expr e env).Yields host settings d s v s') : s.store.KeepsNames s'.store := by
  obtain ⟨n, hinside, hrun⟩ := h.exists_inside
  have hstart : (s.start (.expr e env) d).Confined
      (fun ref _ => s.store.scopes.size ≤ ref.index) s.store [] :=
    Machine.confined_self (m := s.start (.expr e env) d) trivial
  have hkeeps := Machine.keepsNames_run hhost hstart hinside
  rw [hrun] at hkeeps
  exact hkeeps

end Control

namespace Machine

variable {σ : Type} {host : Host σ} {settings : Settings} {d : Nat} {c : Control} {v : Value}
  {s s' : State σ}

/-- **A phrase inside another.**  What is run above a frame ends exactly if it comes
to a value, and the frames below end with this value. -/
theorem ends_above {f : Frame} {fs : List Frame} {d' : Nat} :
    ((s.start c d).above (f :: fs)).Ends host settings d' v s' ↔
      ∃ u s₁, c.Yields host settings d s u s₁ ∧
        ((s₁.start (.value u) d).above (f :: fs)).Ends host settings d' v s' := by
  constructor
  · rintro ⟨n, hn⟩
    by_cases hhalts : ∃ k, ((s.start c d).run host settings k).isHalted = true
    · obtain ⟨k, hk⟩ := hhalts
      obtain ⟨j, hj⟩ := Control.exists_run_above hk (f :: fs)
      have hends : (((s.start c d).run host settings k).above (f :: fs)).Ends host settings d' v
          s' := by
        rw [← hj, ends_run]
        exact ⟨n, hn⟩
      rcases Control.halted_cases hk with ⟨u, s₁, hvalue⟩ | ⟨failure, habort⟩
      · rw [hvalue] at hends
        exact ⟨u, s₁, ⟨k, hvalue⟩, hends⟩
      · exact absurd hends (not_ends_of_abort habort)
    · -- the frame is never reached
      rw [run_above _ _ fun j _ => Bool.eq_false_iff.2 fun h => hhalts ⟨j, h⟩] at hn
      have hframes := congrArg Machine.frames hn
      exact absurd (List.append_eq_nil_iff.1 hframes).2 (List.cons_ne_nil f fs)
  · rintro ⟨u, s₁, ⟨k, hk⟩, hends⟩
    obtain ⟨j, hj⟩ := Control.exists_run_above (c := c) (d := d) (s := s) (n := k)
      (by rw [hk]; rfl) (f :: fs)
    rw [← ends_run j, hj, hk]
    exact hends

/-- A frame that is no call is left by a signal, and goes on with any other value. -/
theorem ends_frame {f : Frame} (hf : f.isCall = false) :
    ((s.start c d).above [f]).Ends host settings d v s' ↔
      ∃ u s₁, c.Yields host settings d s u s₁ ∧
        (u.isSignal = true ∧ v = u ∧ s' = s₁ ∨
          u.isSignal = false ∧
            ((s₁.start (.value u) d).resume host settings u f).Ends host settings d v s') := by
  rw [ends_above]
  refine exists_congr fun u => exists_congr fun s₁ => and_congr_right fun _ => ?_
  rw [← ends_step]
  cases hu : u.isSignal with
  | true =>
    have hstep : ((s₁.start (.value u) d).above [f]).step host settings =
        s₁.start (.value u) d := step_past rfl hu rfl hf
    rw [hstep, ends_value]
    simp
  | false =>
    have hstep : ((s₁.start (.value u) d).above [f]).step host settings =
        (s₁.start (.value u) d).resume host settings u f := step_resume rfl hu rfl
    rw [hstep]
    simp

end Machine

/-! ### Expressions one after the other -/

section Operands

variable {σ : Type} (host : Host σ) (settings : Settings) (d : Nat) (env : Env)

/-- The expressions come to values, one after the other and each of them once, and
no value is a signal. -/
inductive Evaluated : List Expr → State σ → List Value → State σ → Prop
  | nil (s : State σ) : Evaluated [] s [] s
  | cons {e : Expr} {es : List Expr} {v : Value} {vs : List Value} {s s₁ s₂ : State σ} :
      (Control.expr e env).Yields host settings d s v s₁ → v.isSignal = false →
      Evaluated es s₁ vs s₂ → Evaluated (e :: es) s (v :: vs) s₂

/-- One of the expressions comes to a signal, and those after it are not evaluated. -/
inductive Interrupted : List Expr → State σ → Value → State σ → Prop
  | here {e : Expr} {es : List Expr} {v : Value} {s s₁ : State σ} :
      (Control.expr e env).Yields host settings d s v s₁ → v.isSignal = true →
      Interrupted (e :: es) s v s₁
  | later {e : Expr} {es : List Expr} {v w : Value} {s s₁ s₂ : State σ} :
      (Control.expr e env).Yields host settings d s v s₁ → v.isSignal = false →
      Interrupted es s₁ w s₂ → Interrupted (e :: es) s w s₂

/-- The expressions are interrupted by `v`, in `s'`, or their values satisfy `R` in
the state after them. -/
def Operands (es : List Expr) (s : State σ) (v : Value) (s' : State σ)
    (R : List Value → State σ → Prop) : Prop :=
  Interrupted host settings d env es s v s' ∨ ∃ vs s₁, Evaluated host settings d env es s vs s₁ ∧
    R vs s₁

variable {host settings d env} {e : Expr} {es : List Expr} {s s' : State σ} {v : Value}
  {R : List Value → State σ → Prop}

theorem operands_nil : Operands host settings d env [] s v s' R ↔ R [] s := by
  constructor
  · rintro (h | ⟨vs, s₁, h, hR⟩)
    · cases h
    · cases h
      exact hR
  · exact fun h => .inr ⟨[], s, .nil s, h⟩

theorem operands_cons : Operands host settings d env (e :: es) s v s' R ↔
    ∃ u s₁, (Control.expr e env).Yields host settings d s u s₁ ∧
      (u.isSignal = true ∧ v = u ∧ s' = s₁ ∨
        u.isSignal = false ∧ Operands host settings d env es s₁ v s' fun vs => R (u :: vs)) := by
  constructor
  · rintro (h | ⟨vs, s₂, h, hR⟩)
    · cases h with
      | here he hv => exact ⟨_, _, he, .inl ⟨hv, rfl, rfl⟩⟩
      | later he hv hrest => exact ⟨_, _, he, .inr ⟨hv, .inl hrest⟩⟩
    · cases h with
      | cons he hv hrest => exact ⟨_, _, he, .inr ⟨hv, .inr ⟨_, _, hrest, hR⟩⟩⟩
  · rintro ⟨u, s₁, he, ⟨hu, rfl, rfl⟩ | ⟨hu, hrest | ⟨vs, s₂, hrest, hR⟩⟩⟩
    · exact .inl (.here he hu)
    · exact .inl (.later he hu hrest)
    · exact .inr ⟨_, _, .cons he hu hrest, hR⟩

theorem Interrupted.isSignal (h : Interrupted host settings d env es s v s') :
    v.isSignal = true := by
  induction h with
  | here _ hv => exact hv
  | later _ _ _ ih => exact ih

/-- Where there is no signal in the end, none of the expressions has come to one. -/
theorem operands_iff_evaluated (hv : v.isSignal = false) :
    Operands host settings d env es s v s' R ↔
      ∃ vs s₁, Evaluated host settings d env es s vs s₁ ∧ R vs s₁ := by
  refine or_iff_right fun h => ?_
  rw [h.isSignal] at hv
  cases hv

theorem Evaluated.unique {vs vs' : List Value} {s'' : State σ}
    (h : Evaluated host settings d env es s vs s')
    (h' : Evaluated host settings d env es s vs' s'') : vs = vs' ∧ s' = s'' := by
  induction h generalizing vs' s'' with
  | nil s =>
    cases h'
    exact ⟨rfl, rfl⟩
  | cons he _ _ ih =>
    cases h' with
    | cons he' _ hrest' =>
      obtain ⟨rfl, rfl⟩ := he.unique he'
      obtain ⟨rfl, rfl⟩ := ih hrest'
      exact ⟨rfl, rfl⟩

/-- An expression above a frame that goes on with further expressions. -/
theorem ends_operand {f : Frame} (hf : f.isCall = false)
    (hrest : ∀ u s₁, u.isSignal = false →
      (((State.start s₁ (.value u) d).resume host settings u f).Ends host settings d v s' ↔
        Operands host settings d env es s₁ v s' fun vs => R (u :: vs))) :
    ((s.start (.expr e env) d).above [f]).Ends host settings d v s' ↔
      Operands host settings d env (e :: es) s v s' R := by
  rw [Machine.ends_frame hf, operands_cons]
  refine exists_congr fun u => exists_congr fun s₁ => and_congr_right fun _ => ?_
  exact or_congr_right (and_congr_right fun hu => hrest u s₁ hu)

end Operands

/-! ### Rules -/

section Rules

variable {σ : Type} {host : Host σ} {settings : Settings} {d : Nat} {env : Env} {s s' : State σ}
  {v : Value}

theorem yields_ident {id : Ident} :
    (Control.expr (.ident id) env).Yields host settings d s v s' ↔
      v = (s.store.get? env id.name).getD ((Fault.undefined id.name).valueAt id.span) ∧
        s' = s := by
  have hstep : (s.start (.expr (.ident id) env) d).step host settings = s.start
      (.value ((s.store.get? env id.name).getD ((Fault.undefined id.name).valueAt id.span))) d := by
    show Machine.beginExpr host settings _ env (.ident id) = _
    rw [Machine.beginExpr]
    split
    · rename_i value hget
      rw [show s.store.get? env id.name = some value from hget]
      rfl
    · rename_i hget
      rw [show s.store.get? env id.name = none from hget]
      rfl
  rw [Control.Yields, ← Machine.ends_step, hstep, Machine.ends_value]

/-- An element: the array and the position are evaluated, each once, and the element
is fetched. -/
theorem yields_index {container position : Expr} {span : Span} :
    (Control.expr (.index container position span) env).Yields host settings d s v s' ↔
      Operands host settings d env [container, position] s v s' fun vs s₁ =>
        ∃ a i, vs = [a, i] ∧ v = Machine.fetch settings.origin s₁.store a i span ∧ s' = s₁ := by
  rw [Control.Yields, ← Machine.ends_step]
  refine ends_operand (f := .indexLeft position env span) rfl fun a s₁ _ => ?_
  refine ends_operand (f := .indexRight a span) rfl fun i s₂ _ => ?_
  rw [operands_nil]
  refine Machine.ends_value.trans ⟨?_, ?_⟩
  · rintro ⟨rfl, rfl⟩
    exact ⟨a, i, rfl, rfl, rfl⟩
  · rintro ⟨a, i, ⟨⟩, rfl, rfl⟩
    exact ⟨rfl, rfl⟩

end Rules

end Dncl
