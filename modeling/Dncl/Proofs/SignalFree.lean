/-
Dncl/Proofs/SignalFree.lean

Errors and values that are given back are never data.

In a run with the console as host, no name is ever bound to a signal, no array
has one as an element, and none is an argument of a function.  A value that is
given back has no further signal inside, so that a call never comes to one,
and neither does a program.  The evaluation itself never fails.

The invariant is a law about values (`signalFree`): data are no signals, and a
value that is handed on is data, an error, or data that are given back.

Where functions get their arguments is said by `handsOver?`: it is the list of
values that the next step makes an array or a call of (`step_of_handsOver`),
and no other step asks the host for a built-in function (`step_congr_host`).
-/
import Dncl.Console
import Dncl.Proofs.Stored

namespace Dncl

variable {v : Value} {m : Machine Console}

/-- No stored value is a signal. -/
def Store.SignalFree (st : Store) : Prop :=
  ∀ v, st.Stored v → v.isSignal = false

/-! ### The law -/

/-- A value that may be handed on: data, an error, or data that are given
back. -/
def Value.IsOneDeep (v : Value) : Prop :=
  v.isSignal = false ∨ v.isError = true ∨ ∃ w span, v = .returned w span ∧ w.isSignal = false

theorem Value.isSignal_of_isPlain (h : v.isPlain = true) : v.isSignal = false := by
  cases v with
  | int | str | bool | null => rfl
  | _ => cases h

theorem Fault.isError_valueAt (f : Fault) (span : Span) : (f.valueAt span).isError = true := by
  rw [Fault.valueAt]
  split <;> rfl

/-- Data are no signals, and at most one value that is given back is wrapped
around them. -/
def signalFree : ValueLaw where
  data _ v := v.isSignal = false
  carried _ v := v.IsOneDeep
  data_plain := Value.isSignal_of_isPlain
  data_function _ _ _ := rfl
  data_array _ _ := rfl
  data_of_carried _ h := h
  carried_of_data h := .inl h
  carried_fault _ f span := .inr (.inl (f.isError_valueAt span))
  carried_returned span h := .inr (.inr ⟨_, span, rfl, h⟩)
  carried_unwrap {n v} h hv := by
    rcases h with h | h | ⟨w, span, rfl, hw⟩
    · exact absurd (h.symm.trans hv) Bool.false_ne_true
    · cases v with
      | error | typeError => exact .inr (.inl rfl)
      | _ => cases h
    · exact .inl hw
  data_mono _ h := h
  carried_mono _ h := h

theorem Value.IsOneDeep.kind_unwrap (h : v.IsOneDeep) : v.unwrap.kind ≠ .returned := by
  rcases h with h | h | ⟨w, span, rfl, hw⟩
  · cases v with
    | returned w span => cases h
    | _ => exact Kind.noConfusion
  · cases v with
    | returned w span => cases h
    | _ => exact Kind.noConfusion
  · cases w with
    | returned w span => cases hw
    | _ => exact Kind.noConfusion

/-! ### The console -/

namespace Console

/-- A built-in function of the console computes a value; only `戻り値` gives back
its argument. -/
theorem builtin_computed (function : Builtin) (arguments : List Value) (span : Span) (st : Store)
    (c : Console) :
    Machine.Computed span (c.builtin function arguments span st).1 ∨
      function = .giveBack ∧ ∃ v ∈ arguments,
        (c.builtin function arguments span st).1 = .returned v span := by
  cases function with
  | print =>
    left
    rw [builtin, print]
    split
    · exact @Machine.Computed.fault span (.printFailed c.refusal) rfl
    · exact .plain rfl rfl
  | length =>
    left
    rw [builtin, length.eq_def]
    simp only
    split
    · exact .plain rfl rfl
    · exact .fault rfl
    · exact .fault rfl
  | diff =>
    left
    rw [builtin, diff.eq_def]
    simp only
    split
    · split
      · exact .plain rfl rfl
      · exact .fault rfl
    · exact .fault rfl
    · exact .fault rfl
  | giveBack =>
    rw [builtin, giveBack.eq_def]
    simp only
    split
    · rename_i value
      exact .inr ⟨trivial, value, List.mem_cons_self, rfl⟩
    · exact .inl (.fault rfl)

theorem command_computed (command : Command) (span : Span) (c : Console) :
    Machine.Computed span (c.command command span).1 := by
  cases command with
  | input =>
    rw [Console.command, readLine]
    split
    · exact @Machine.Computed.fault span .noInput rfl
    · rw [inputValue]
      split <;> exact .plain rfl rfl
    · exact @Machine.Computed.fault span (.inputFailed _) rfl
  | other text => exact .plain rfl rfl

/-- The console keeps to every law that the evaluator keeps to. -/
theorem follows (law : ValueLaw) : law.Followed host where
  builtin function arguments span st c hst ha := by
    refine ⟨hst, ?_, Nat.le_refl _⟩
    rcases builtin_computed function arguments span st c with h | ⟨-, v, hv, h⟩
    · exact ValueLaw.carried_of_computed h
    · exact Eq.mpr (congrArg _ h) (law.carried_returned span (ha v hv))
  command command span _ c hst :=
    ⟨hst, ValueLaw.carried_of_computed (command_computed command span c), Nat.le_refl _⟩

theorem builtin_kind (function : Builtin) (arguments : List Value) (span : Span) (st : Store)
    (c : Console) (h : function ≠ .giveBack) :
    (c.builtin function arguments span st).1.kind ≠ .returned := by
  rcases builtin_computed function arguments span st c with hv | ⟨hgive, -⟩
  · exact hv.kind_ne
  · exact absurd hgive h

end Console

namespace Machine

variable {σ : Type} {host : Host σ} {settings : Settings}

/-! ### Arguments -/

/-- The values from which the next step makes an array, or to which it applies
a function, and what they are for. -/
def handsOver? (m : Machine σ) : Option (Purpose × List Value) :=
  match m.control, m.frames with
  | .expr (.array [] span) _, _ => some (.array span, [])
  | .expr (.builtin function [] span) _, _ => some (.builtin function span, [])
  | .value v, .callee [] _ span :: _ => if v.isSignal then none else some (.call v span, [])
  | .value v, .collect purpose done [] _ :: _ =>
    if v.isSignal then none else some (purpose, (v :: done).reverse)
  | _, _ => none

theorem inHand_eq {m : Machine σ} {f : Frame} {frames : List Frame} (hc : m.control = .value v)
    (hf : m.frames = f :: frames) (hv : v.isSignal = false) : m.inHand = v :: f.values := by
  simp [inHand, hc, hf, hv]

/-- Values that are handed over were in hand, and the next step is to make an
array of them, or to apply a function to them. -/
theorem step_of_handsOver (host : Host σ) (settings : Settings) {m : Machine σ}
    {purpose : Purpose} {values : List Value} (h : m.handsOver? = some (purpose, values)) :
    (∀ v ∈ purpose.values ++ values, v ∈ m.inHand) ∧
      m.step host settings = m.base.deliver host settings purpose values := by
  rw [handsOver?.eq_def] at h
  split at h
  · rename_i hc
    obtain ⟨rfl, rfl⟩ := Prod.mk.inj (Option.some.inj h)
    refine ⟨fun v hv => absurd hv List.not_mem_nil, ?_⟩
    simp [step, base, hc, beginExpr, collect, Control.isBusy]
  · rename_i hc
    obtain ⟨rfl, rfl⟩ := Prod.mk.inj (Option.some.inj h)
    refine ⟨fun v hv => absurd hv List.not_mem_nil, ?_⟩
    simp [step, base, hc, beginExpr, collect, Control.isBusy]
  · rename_i hc hf
    split at h
    · cases h
    · rename_i hv
      obtain ⟨rfl, rfl⟩ := Prod.mk.inj (Option.some.inj h)
      refine ⟨?_, by simp [step, base, hc, hf, hv, resume, collect, Control.isBusy]⟩
      rw [inHand_eq hc hf (Bool.eq_false_iff.2 hv)]
      simp [Purpose.values, Frame.values]
  · rename_i hc hf
    split at h
    · cases h
    · rename_i hv
      obtain ⟨rfl, rfl⟩ := Prod.mk.inj (Option.some.inj h)
      refine ⟨?_, by simp [step, base, hc, hf, hv, resume, collect, Control.isBusy]⟩
      rw [inHand_eq hc hf (Bool.eq_false_iff.2 hv)]
      intro w hw
      simp only [Frame.values, List.mem_append, List.mem_reverse, List.mem_cons] at hw ⊢
      rcases hw with hw | hw | hw
      · exact .inr (.inl hw)
      · exact .inl hw
      · exact .inr (.inr hw)
  · cases h

/-- Going on with a list of expressions, two hosts differ only in how they
answer to a built-in function, when there is nothing left to evaluate. -/
theorem collect_congr_host {host' : Host σ} {m : Machine σ} {purpose : Purpose}
    {done : List Value} {rest : List Expr} {env : Env}
    (h : ∀ function span, rest = [] → purpose = .builtin function span →
      host.builtin function done.reverse span m.store m.world =
        host'.builtin function done.reverse span m.store m.world) :
    m.collect host settings purpose done rest env =
      m.collect host' settings purpose done rest env := by
  cases rest with
  | cons e rest => rfl
  | nil =>
    cases purpose with
    | array span => rfl
    | call callee span => rfl
    | builtin function span =>
      rw [collect, collect, deliver, deliver, applyBuiltin, applyBuiltin, h function span rfl rfl]

/-- Two hosts that agree on commands, and on a built-in function that is
applied now, make the same step. -/
theorem step_congr_host {host' : Host σ} {m : Machine σ}
    (hcommand : host.command = host'.command)
    (hbuiltin : ∀ function span values, m.handsOver? = some (.builtin function span, values) →
      host.builtin function values span m.store m.world =
        host'.builtin function values span m.store m.world) :
    m.step host settings = m.step host' settings := by
  obtain ⟨control, frames, store, depth, world⟩ := m
  cases control with
  | expr e env =>
    cases e with
    | array elements span => exact collect_congr_host fun _ _ _ h => by cases h
    | builtin function arguments span =>
      apply collect_congr_host
      rintro function span rfl ⟨⟩
      exact hbuiltin function span [] rfl
    | command c span =>
      obtain ⟨builtin, command⟩ := host
      obtain ⟨builtin', command'⟩ := host'
      -- commands are the other thing that is asked of a host
      obtain rfl : command = command' := hcommand
      rfl
    | _ => rfl
  | statements rest span env => cases rest <;> rfl
  | value v =>
    cases frames with
    | nil => rfl
    | cons f frames =>
      simp only [step]
      split
      · rfl
      · rename_i hv
        cases f with
        | collect purpose done rest env =>
          -- the last argument has come: the frame says which function is called
          apply collect_congr_host
          rintro function span rfl rfl
          exact hbuiltin function span _ (if_neg hv)
        | callee arguments env span => exact collect_congr_host fun _ _ _ h => by cases h
        | program rest env => cases rest <;> rfl
        | _ => rfl
  | _ => rfl

/-! ### Invariants of a run with the console -/

/-- What is known of every state of a run with the console. -/
structure Sound (m : Machine Console) : Prop where
  obeyed : signalFree.Obeyed m
  alive : ∀ failure, m.control ≠ .abort failure

/-- Only an answer of the host can make the evaluation fail, and the console
gives no such answer. -/
theorem run_sound (h : Sound m) (n : Nat) : Sound (m.run Console.host settings n) := by
  refine run_invariant ?_ h n
  intro m m' hm _ hmove
  have hhand : ∀ v ∈ m.inHand, signalFree.data m.base.store.arrays.size v := by
    rw [store_base]
    exact hm.obeyed.inHand
  refine ⟨hm.obeyed.base.move (Console.follows signalFree) hhand hmove, ?_⟩
  have halive : ∀ failure, m.base.control ≠ .abort failure := by
    rw [control_base]
    exact hm.alive
  cases hmove with
  | turn hc | push _ _ hc =>
    rintro failure rfl
    cases hc
  | assign env name hv hc =>
    rintro failure rfl
    rcases hc with hc | ⟨span, hc⟩ <;> cases hc
  | call ref place span _ _ harity hdepth =>
    rw [apply_eq harity hdepth]
    exact fun _ => Control.noConfusion
  | builtin function span ha =>
    rw [applyBuiltin]
    simp only
    split
    · rename_i hfail
      exact absurd hfail.2 (Console.builtin_kind _ _ _ _ _ hfail.1)
    · exact fun _ => Control.noConfusion
  | pass | abort => exact halive
  | _ => exact fun _ => Control.noConfusion

theorem load_sound {s : Session Console} (h : s.store.SignalFree) (p : Program) :
    Sound (load s p) := by
  have hobeyed : signalFree.ObeyedIn s.store := h
  refine ⟨ValueLaw.Obeyed.load hobeyed p, ?_⟩
  rw [load]
  split <;> exact fun _ => Control.noConfusion

theorem Sound.data (h : Sound m) {purpose : Purpose} {values : List Value}
    (hover : m.handsOver? = some (purpose, values)) :
    ∀ v ∈ purpose.values ++ values, v.isSignal = false :=
  fun v hv => h.obeyed.inHand v ((step_of_handsOver Console.host {} hover).1 v hv)

/-- How a host answers to signals as arguments makes no difference. -/
theorem run_congr_host {host' : Host Console} (hcommand : host'.command = Console.host.command)
    (hbuiltin : ∀ function arguments span st c, (∀ v ∈ arguments, v.isSignal = false) →
      host'.builtin function arguments span st c =
        Console.host.builtin function arguments span st c) (h : Sound m) (n : Nat) :
    m.run host' settings n = m.run Console.host settings n := by
  induction n with
  | zero => rfl
  | succ n ih =>
    rw [run_succ, run_succ, ih]
    refine step_congr_host hcommand ?_
    intro function span values hover
    exact hbuiltin _ _ _ _ _ ((run_sound h n).data hover)

/-- A function that is applied begins to run, or there is an error. -/
theorem isError_of_apply {m : Machine σ} {callee : Value} {arguments : List Value} {span : Span}
    (h : (m.apply settings callee arguments span).control = .value v) : v.isError = true := by
  cases callee with
  | function ref place =>
    simp only [apply] at h
    split at h
    · cases h
      exact Fault.isError_valueAt _ _
    · split at h
      · cases h
        exact Fault.isError_valueAt _ _
      · cases h
  | _ =>
    cases h
    exact Fault.isError_valueAt _ _

/-- The value of a call is never one that is given back. -/
theorem Sound.step_of_call (h : Sound m) {span : Span} {outer : List Frame}
    (hc : m.control = .value v) (hf : m.frames = .call span :: outer) :
    ∃ w, w.kind ≠ .returned ∧ m.step Console.host settings =
      { m with control := .value w, frames := outer, depth := m.depth - 1 } := by
  cases hv : v.isSignal with
  | true =>
    refine ⟨v.unwrap, (h.obeyed.given v hc).kind_unwrap, ?_⟩
    simp [step, hc, hf, hv, unwind]
  | false =>
    refine ⟨.null span, Kind.noConfusion, ?_⟩
    simp [step, hc, hf, hv, resume]

theorem Sound.outcome (h : Sound m) {result : Except Fatal Value}
    (hresult : m.outcome? = some result) : ∃ v, result = .ok v ∧ v.kind ≠ .returned := by
  rw [outcome?.eq_def] at hresult
  split at hresult
  · rename_i v _ hc
    exact ⟨v.unwrap, (Option.some.inj hresult).symm, (h.obeyed.given v hc).kind_unwrap⟩
  · rename_i failure _ hc
    exact absurd hc (h.alive failure)
  · cases hresult

/-! ### Main result -/

/-- **Signals are never data.**  Let `m` be any state in the run of a program
with the console, begun where no stored value is a signal.

* No stored value is a signal in `m`.
* If the next step makes an array or applies a function, neither the function
  nor a value that it is applied to is a signal.
* So the run is the same for every host that differs from the console in its
  answers to signals only.
* The evaluation has not failed.
* A function that is applied now, or whose call ends now, does not come to a
  value that is given back.
* Neither does the program, if it has ended. -/
theorem signals_never_data (settings : Settings) (s : Session Console) (hs : s.store.SignalFree)
    (p : Program) (n : Nat) (m : Machine Console)
    (hm : (load s p).run Console.host settings n = m) :
    m.store.SignalFree ∧
    (∀ purpose values, m.handsOver? = some (purpose, values) →
      m.step Console.host settings = m.base.deliver Console.host settings purpose values ∧
        ∀ v ∈ purpose.values ++ values, v.isSignal = false) ∧
    (∀ host : Host Console, host.command = Console.host.command →
      (∀ function arguments span st c, (∀ v ∈ arguments, v.isSignal = false) →
        host.builtin function arguments span st c =
          Console.host.builtin function arguments span st c) →
      (load s p).run host settings n = m) ∧
    (∀ failure, m.control ≠ .abort failure) ∧
    (∀ callee span values, m.handsOver? = some (.call callee span, values) →
      ∀ v, (m.step Console.host settings).control = .value v → v.kind ≠ .returned) ∧
    (∀ v span outer, m.control = .value v → m.frames = .call span :: outer →
      ∃ w, w.kind ≠ .returned ∧ m.step Console.host settings =
        { m with control := .value w, frames := outer, depth := m.depth - 1 }) ∧
    ∀ result, m.outcome? = some result → ∃ v, result = .ok v ∧ v.kind ≠ .returned := by
  have hload : Sound (load s p) := load_sound hs p
  have hsound : Sound m := hm ▸ run_sound hload n
  refine ⟨hsound.obeyed.stored, ?_, ?_, hsound.alive, ?_, ?_, ?_⟩
  · intro purpose values hover
    exact ⟨(step_of_handsOver _ _ hover).2, hsound.data hover⟩
  · intro host hcommand hbuiltin
    rw [run_congr_host hcommand hbuiltin hload, hm]
  · intro callee span values hover v hv hkind
    rw [(step_of_handsOver _ _ hover).2] at hv
    have herror : v.isError = true := isError_of_apply hv
    rw [Value.isError, hkind] at herror
    cases herror
  · intro v span outer hc hf
    exact hsound.step_of_call hc hf
  · intro result hresult
    exact hsound.outcome hresult

/-- A function that gives back its argument twice over, called in an array;
then a number is printed. -/
def givesBackTwice : Program :=
  ⟨[.expr (.array [.call (.function ⟨[⟨"x", default⟩],
      ⟨[.giveBack (.builtin .giveBack [.ident ⟨"x", default⟩] default) default], default⟩,
      default⟩) [.int 5 default] default] default),
    .expr (.builtin .print [.int 1 default] default)], default⟩

theorem signals_never_data_twice :
    (Session.new ({} : Console)).store.SignalFree ∧
    ((load (Session.new {}) givesBackTwice).run Console.host {} 30).store.SignalFree ∧
    ∃ v, ((load (Session.new {}) givesBackTwice).run Console.host {} 30).outcome? =
      some (.ok v) ∧ v.kind ≠ .returned := by
  have hs : (Session.new ({} : Console)).store.SignalFree :=
    fun v hv => absurd hv (Session.not_stored_new _ v)
  have hspec := signals_never_data {} (Session.new {}) hs givesBackTwice 30 _ rfl
  refine ⟨hs, hspec.1, ?_⟩
  obtain ⟨v, hv, hkind⟩ := hspec.2.2.2.2.2.2 _ rfl
  exact ⟨v, by rw [← hv]; rfl, hkind⟩

end Machine

end Dncl
