/-
Dncl/Proofs/Overwriting.lean

Counted loops overwrite their variable.

The body of a counted loop may do with the variable what it likes.  If it leaves an
integer there, the loop counts on from this integer.  If it leaves anything else, the
loop counts on from the value of the round, as if the body had not touched the
variable: what was left there is overwritten, and nothing is refused.

Design.  `Counting.Body` is one execution of the body, and `Counting.Resumes` says
from which integer the loop counts on.  The rounds of a loop are then a relation
(`Counting.Rounds`) with one rule for each way in which a round can end, and the loop
comes to exactly what its rounds come to (`yields_iff_rounds`).  One direction is an
induction on the rounds; the other one on the number of steps, since a round that
leads back to the head of the loop takes at least one.
-/
import Dncl.Proofs.Evaluation

namespace Dncl

theorem Store.KeepsNames.isDefined {st st' : Store} (h : st.KeepsNames st') {env : Env}
    {name : String} (hname : st.isDefined env name = true) : st'.isDefined env name = true := by
  obtain ⟨ref, hmem, hbinds⟩ := Store.isDefined_iff.1 hname
  have hwidens : st.Widens (fun _ _ => True) st' := h.widens fun _ _ _ => trivial
  exact Store.isDefined_iff.2 ⟨ref, hmem, hwidens.keeps ref name hbinds⟩

namespace Counting

variable {σ : Type} {host : Host σ} {settings : Settings} {d : Nat} {loop : Counting} {c n : Int}
  {u w : Value} {s s₁ s' : State σ}

/-! ### One round -/

/-- The body, in a scope of its own, comes to the value `u` and leaves the state
`s₁`. -/
def Body (host : Host σ) (settings : Settings) (d : Nat) (loop : Counting) (s : State σ)
    (u : Value) (s₁ : State σ) : Prop :=
  (Control.statements loop.body.statements loop.body.span (s.store.enter loop.env).1).Yields host
    settings d ⟨(s.store.enter loop.env).2, s.world⟩ u s₁

/-- After a round at the value `c` the loop counts on from `n`: from the integer that
the variable has, and from `c` if it has none. -/
inductive Resumes (loop : Counting) (c : Int) (st : Store) : Int → Prop
  | changed {n : Int} : loop.Holds n st → Resumes loop c st n
  | lost : (∀ n, ¬ loop.Holds n st) → Resumes loop c st c

/-- The state in which the variable has been given the value `n`. -/
def set (loop : Counting) (s : State σ) (n : Int) : State σ :=
  ⟨s.store.assign loop.env loop.counter.name (.int n loop.counter.span), s.world⟩

theorem exists_resumes (loop : Counting) (c : Int) (st : Store) : ∃ n, loop.Resumes c st n := by
  by_cases h : ∃ n, loop.Holds n st
  · obtain ⟨n, hn⟩ := h
    exact ⟨n, .changed hn⟩
  · exact ⟨c, .lost fun n hn => h ⟨n, hn⟩⟩

theorem Resumes.counterAfter_eq {m : Machine σ} (h : loop.Resumes c m.store n) :
    m.counterAfter loop c = n := by
  rw [Machine.counterAfter]
  cases h with
  | changed hn =>
    obtain ⟨span, hn⟩ := hn
    simp only [hn]
  | lost hnone =>
    split
    · rename_i k span hk
      exact absurd ⟨span, hk⟩ (hnone k)
    · rfl

/-- A value of another kind is no integer. -/
theorem resumes_of_kind {st : Store} {v : Value}
    (hv : st.get? loop.env loop.counter.name = some v) (hkind : v.kind ≠ .int) :
    loop.Resumes c st c := by
  refine .lost fun n hn => ?_
  obtain ⟨span, hn⟩ := hn
  obtain rfl := Option.some.inj (hv.symm.trans hn)
  exact hkind rfl

theorem countOn_of_fits (h : loop.Resumes c s₁.store n) (hfits : Text.Fits (loop.nth n 1)) :
    (s₁.start (.value u) d).countOn loop c =
      (loop.set s₁ (loop.nth n 1)).start (.count loop) d := by
  rw [Machine.countOn, h.counterAfter_eq (m := s₁.start (.value u) d), after?_eq_some hfits]
  rfl

theorem countOn_of_not_fits (h : loop.Resumes c s₁.store n) (hfits : ¬ Text.Fits (loop.nth n 1)) :
    (s₁.start (.value u) d).countOn loop c = s₁.start (.value (.null loop.span)) d := by
  rw [Machine.countOn, h.counterAfter_eq (m := s₁.start (.value u) d), after?_eq_none hfits]
  rfl

/-- The first step of a round. -/
theorem step_of_inRange (hc : loop.Holds c s.store) (hin : loop.inRange c = true) :
    (s.start (.count loop) d).step host settings =
      (State.start ⟨(s.store.enter loop.env).2, s.world⟩ (.statements loop.body.statements
        loop.body.span (s.store.enter loop.env).1) d).above [.countBody loop c] :=
  (Stands.begins (m := s.start (.count loop) d) ⟨rfl, hc⟩ hin).step

theorem yields_of_not_inRange (hc : loop.Holds c s.store) (hout : loop.inRange c = false) :
    (Control.count loop).Yields host settings d s w s' ↔ w = .null loop.span ∧ s' = s := by
  rw [Control.Yields, ← Machine.ends_step,
    Stands.step_of_not_inRange (m := s.start (.count loop) d) ⟨rfl, hc⟩ hout]
  exact Machine.ends_value

/-- A round comes to what its body comes to, or it is left to what follows. -/
theorem yields_of_inRange (hc : loop.Holds c s.store) (hin : loop.inRange c = true) :
    (Control.count loop).Yields host settings d s w s' ↔
      ∃ u s₁, loop.Body host settings d s u s₁ ∧
        (u.isSignal = true ∧ w = u ∧ s' = s₁ ∨
          u.isSignal = false ∧
            ((s₁.start (.value u) d).countOn loop c).Ends host settings d w s') := by
  rw [Control.Yields, ← Machine.ends_step, step_of_inRange hc hin]
  exact Machine.ends_frame rfl

theorem Body.yields_iff (hbody : loop.Body host settings d s u s₁) (hu : u.isSignal = false)
    (hc : loop.Holds c s.store) (hin : loop.inRange c = true) :
    (Control.count loop).Yields host settings d s w s' ↔
      ((s₁.start (.value u) d).countOn loop c).Ends host settings d w s' := by
  rw [yields_of_inRange hc hin]
  constructor
  · rintro ⟨u', s₂, hbody', hrest⟩
    obtain ⟨rfl, rfl⟩ := Control.Yields.unique hbody hbody'
    rcases hrest with ⟨hsignal, -⟩ | ⟨-, hends⟩
    · rw [hu] at hsignal
      cases hsignal
    · exact hends
  · exact fun hends => ⟨u, s₁, hbody, .inr ⟨hu, hends⟩⟩

/-! ### The variable -/

/-- A body leaves every name defined. -/
theorem Body.keepsNames (hhost : host.KeepsNames) (hbody : loop.Body host settings d s u s₁) :
    s.store.KeepsNames s₁.store := by
  obtain ⟨n, hinside, hrun⟩ := Control.Yields.exists_inside hbody
  -- the scope of the body is new, so in it any name may be bound
  have hstart : (State.start ⟨(s.store.enter loop.env).2, s.world⟩ (.statements
      loop.body.statements loop.body.span (s.store.enter loop.env).1) d).Confined
      (fun ref _ => s.store.scopes.size ≤ ref.index) s.store [] :=
    ⟨⟨Store.widens_enter loop.env, [], rfl, by simp⟩, fun _ => Nat.le_refl _⟩
  have hkeeps := Machine.keepsNames_run hhost hstart hinside
  rw [hrun] at hkeeps
  exact hkeeps

/-- Whatever the body has done, the variable has the value that the loop gives it. -/
theorem Body.holds_set (hhost : host.KeepsNames) (hbody : loop.Body host settings d s u s₁)
    (hc : loop.Holds c s.store) (n : Int) : loop.Holds n (loop.set s₁ n).store := by
  -- the variable is bound at the head, and the body cannot unbind it
  obtain ⟨span, hvalue⟩ := hc
  have hdefined : s.store.isDefined loop.env loop.counter.name = true :=
    (Store.isDefined_iff_get? _ _ _).2 ⟨_, hvalue⟩
  exact ⟨_, Store.get?_assign_self (.inr ((hbody.keepsNames hhost).isDefined hdefined)) _⟩

/-! ### All rounds -/

/-- The rounds of a loop from the value `c` on.  A round is left by a signal of its
body, it is the last one if there is no next value, or it leads to the next round. -/
inductive Rounds (host : Host σ) (settings : Settings) (d : Nat) (loop : Counting) :
    Int → State σ → Value → State σ → Prop
  | past {c : Int} {s : State σ} : loop.inRange c = false →
      Rounds host settings d loop c s (.null loop.span) s
  | left {c : Int} {s s₁ : State σ} {u : Value} : loop.inRange c = true →
      loop.Body host settings d s u s₁ → u.isSignal = true →
      Rounds host settings d loop c s u s₁
  | last {c n : Int} {s s₁ : State σ} {u : Value} : loop.inRange c = true →
      loop.Body host settings d s u s₁ → u.isSignal = false → loop.Resumes c s₁.store n →
      ¬ Text.Fits (loop.nth n 1) → Rounds host settings d loop c s (.null loop.span) s₁
  | next {c n : Int} {s s₁ s' : State σ} {u w : Value} : loop.inRange c = true →
      loop.Body host settings d s u s₁ → u.isSignal = false → loop.Resumes c s₁.store n →
      Text.Fits (loop.nth n 1) →
      Rounds host settings d loop (loop.nth n 1) (loop.set s₁ (loop.nth n 1)) w s' →
      Rounds host settings d loop c s w s'

/-- Rounds that end are a run of the loop. -/
theorem Rounds.yields (hhost : host.KeepsNames) (h : loop.Rounds host settings d c s w s')
    (hc : loop.Holds c s.store) : (Control.count loop).Yields host settings d s w s' := by
  induction h with
  | past hout => exact (yields_of_not_inRange hc hout).2 ⟨rfl, rfl⟩
  | left hin hbody hu =>
    exact (yields_of_inRange hc hin).2 ⟨_, _, hbody, .inl ⟨hu, rfl, rfl⟩⟩
  | last hin hbody hu hresumes hfits =>
    rw [hbody.yields_iff hu hc hin, countOn_of_not_fits hresumes hfits]
    exact Machine.ends_value.2 ⟨rfl, rfl⟩
  | next hin hbody hu hresumes hfits _ ih =>
    rw [hbody.yields_iff hu hc hin, countOn_of_fits hresumes hfits]
    exact ih (hbody.holds_set hhost hc _)

/-- A round that is not the last one leads back to the head of the loop. -/
theorem Body.exists_run (hbody : loop.Body host settings d s u s₁) (hu : u.isSignal = false)
    (hc : loop.Holds c s.store) (hin : loop.inRange c = true)
    (hresumes : loop.Resumes c s₁.store n) (hfits : Text.Fits (loop.nth n 1)) :
    ∃ k, (s.start (.count loop) d).run host settings (k + 1) =
      (loop.set s₁ (loop.nth n 1)).start (.count loop) d := by
  obtain ⟨j, hj⟩ := hbody
  obtain ⟨k, hk⟩ := Control.exists_run_above (n := j) (by rw [hj]; rfl) [.countBody loop c]
  refine ⟨k + 1, ?_⟩
  have hstep : ((s₁.start (.value u) d).above [.countBody loop c]).step host settings =
      (s₁.start (.value u) d).resume host settings u (.countBody loop c) :=
    Machine.step_resume rfl hu rfl
  rw [Machine.run_succ_of_step, step_of_inRange hc hin, Machine.run_succ, hk, hj, hstep]
  exact countOn_of_fits hresumes hfits

/-- The steps of a loop from its head to its end are those of its rounds. -/
theorem rounds_of_run (hhost : host.KeepsNames) {k : Nat} (hc : loop.Holds c s.store)
    (hk : (s.start (.count loop) d).run host settings k = s'.start (.value w) d) :
    loop.Rounds host settings d c s w s' := by
  induction k using Nat.strong_induction_on generalizing c s with
  | _ k ih =>
  have hyields : (Control.count loop).Yields host settings d s w s' := ⟨k, hk⟩
  cases hin : loop.inRange c with
  | false =>
    obtain ⟨rfl, rfl⟩ := (yields_of_not_inRange hc hin).1 hyields
    exact .past hin
  | true =>
    obtain ⟨u, s₁, hbody, ⟨hu, rfl, rfl⟩ | ⟨hu, hends⟩⟩ := (yields_of_inRange hc hin).1 hyields
    · exact .left hin hbody hu
    · obtain ⟨n, hresumes⟩ := loop.exists_resumes c s₁.store
      by_cases hfits : Text.Fits (loop.nth n 1)
      · obtain ⟨j, hj⟩ := hbody.exists_run hu hc hin hresumes hfits
        -- the loop has not ended when it is back at its head
        have hle : j + 1 ≤ k := by
          refine Nat.le_of_not_lt fun hlt => ?_
          obtain ⟨i, hi⟩ := Nat.exists_eq_add_of_le (Nat.le_of_lt hlt)
          rw [hi, Machine.run_add, hk, Machine.run_of_isHalted rfl] at hj
          cases congrArg Machine.control hj
        obtain ⟨i, rfl⟩ := Nat.exists_eq_add_of_le hle
        rw [Machine.run_add, hj] at hk
        exact .next hin hbody hu hresumes hfits (ih i (by omega) (hbody.holds_set hhost hc _) hk)
      · rw [countOn_of_not_fits hresumes hfits] at hends
        obtain ⟨rfl, rfl⟩ := Machine.ends_value.1 hends
        exact .last hin hbody hu hresumes hfits

/-- A loop comes to what its rounds come to. -/
theorem yields_iff_rounds (hhost : host.KeepsNames) (hc : loop.Holds c s.store) :
    (Control.count loop).Yields host settings d s w s' ↔ loop.Rounds host settings d c s w s' := by
  refine ⟨?_, fun h => h.yields hhost hc⟩
  rintro ⟨k, hk⟩
  exact rounds_of_run hhost hc hk

/-- A loop has no signals but those of its body. -/
theorem Rounds.exists_body (h : loop.Rounds host settings d c s w s') (hw : w.isSignal = true) :
    ∃ t, loop.Body host settings d t w s' := by
  induction h with
  | past => cases hw
  | left _ hbody _ => exact ⟨_, hbody⟩
  | last => cases hw
  | next _ _ _ _ _ _ ih => exact ih hw

end Counting

/-! ### Statements -/

section Statements

variable {σ : Type} {host : Host σ} {settings : Settings} {d : Nat} {env : Env} {s s' : State σ}

theorem Evaluated.size_le (hhost : host.KeepsNames) {es : List Expr} {vs : List Value}
    (h : Evaluated host settings d env es s vs s') :
    s.store.scopes.size ≤ s'.store.scopes.size := by
  induction h with
  | nil s => exact Nat.le_refl _
  | cons he _ _ ih => exact Nat.le_trans (he.keepsNames hhost).size ih

/-- The bounds and the step `a`, `b` and `k` of a loop are refused, or the variable
gets its first value and the rounds begin. -/
inductive BeginsCount (host : Host σ) (settings : Settings) (d : Nat) (env : Env)
    (counter : Ident) (direction : Direction) (body : Block) (stepSpan span : Span)
    (a b k : Value) (s : State σ) : Value → State σ → Prop
  | bounds : ¬ (a.kind = .int ∧ b.kind = .int ∧ k.kind = .int) →
      BeginsCount host settings d env counter direction body stepSpan span a b k s
        ((Fault.loopBounds a.kind b.kind k.kind).valueAt span) s
  | step {first last step : Int} {p q r : Span} : a = .int first p → b = .int last q →
      k = .int step r → step ≤ 0 →
      BeginsCount host settings d env counter direction body stepSpan span a b k s
        (Fault.stepNotPositive.valueAt stepSpan) s
  | rounds {first last step : Int} {p q r : Span} {w : Value} {s' : State σ} :
      a = .int first p → b = .int last q → k = .int step r → 0 < step →
      Counting.Rounds host settings d ⟨counter, last, step, direction, body, span, env⟩ first
        ⟨s.store.assign env counter.name a, s.world⟩ w s' →
      BeginsCount host settings d env counter direction body stepSpan span a b k s w s'

/-- How a counted loop goes on once its bounds have come to values. -/
theorem ends_beginCount (hhost : host.KeepsNames) {counter : Ident} {direction : Direction}
    {body : Block} {stepSpan span : Span} {a b k u w : Value}
    (henv : env.here.index < s.store.scopes.size) :
    ((s.start (.value u) d).beginCount counter a b k stepSpan direction body span env).Ends host
        settings d w s' ↔
      BeginsCount host settings d env counter direction body stepSpan span a b k s w s' := by
  by_cases hkinds : a.kind = .int ∧ b.kind = .int ∧ k.kind = .int
  · obtain ⟨ha, hb, hk⟩ := hkinds
    cases a <;> cases ha
    cases b <;> cases hb
    cases k <;> cases hk
    -- three integers: the step decides
    rename_i first p last q step r
    rw [Machine.beginCount]
    by_cases hstep : step ≤ 0
    · rw [if_pos hstep]
      refine Machine.ends_value.trans ⟨?_, ?_⟩
      · rintro ⟨rfl, rfl⟩
        exact .step rfl rfl rfl hstep
      · intro h
        cases h with
        | bounds hkinds => exact absurd ⟨rfl, rfl, rfl⟩ hkinds
        | step => exact ⟨rfl, rfl⟩
        | rounds _ _ hk hpos =>
          cases hk
          omega
    · rw [if_neg hstep]
      have hholds : Counting.Holds ⟨counter, last, step, direction, body, span, env⟩ first
          (s.store.assign env counter.name (.int first p)) :=
        ⟨p, Store.get?_assign_self (.inl henv) _⟩
      -- the variable has its first value, and the rounds begin
      refine (Counting.yields_iff_rounds (s := ⟨s.store.assign env counter.name (.int first p),
        s.world⟩) hhost hholds).trans ⟨?_, ?_⟩
      · exact fun h => .rounds rfl rfl rfl (by omega) h
      · intro h
        cases h with
        | bounds hkinds => exact absurd ⟨rfl, rfl, rfl⟩ hkinds
        | step _ _ hk hle =>
          cases hk
          exact absurd hle hstep
        | rounds ha hb hk _ hrounds =>
          cases ha
          cases hb
          cases hk
          exact hrounds
  · -- one of them is no integer: the loop does not begin
    have hrefused : (s.start (.value u) d).beginCount counter a b k stepSpan direction body span
        env = s.start (.value ((Fault.loopBounds a.kind b.kind k.kind).valueAt span)) d := by
      rw [Machine.beginCount.eq_def]
      split
      · exact absurd ⟨rfl, rfl, rfl⟩ hkinds
      · rfl
    rw [hrefused]
    refine Machine.ends_value.trans ⟨?_, ?_⟩
    · rintro ⟨rfl, rfl⟩
      exact .bounds hkinds
    · intro h
      cases h with
      | bounds => exact ⟨rfl, rfl⟩
      | step ha hb hk => exact absurd ⟨by rw [ha]; rfl, by rw [hb]; rfl, by rw [hk]; rfl⟩ hkinds
      | rounds ha hb hk => exact absurd ⟨by rw [ha]; rfl, by rw [hb]; rfl, by rw [hk]; rfl⟩ hkinds

/-- A counted loop: the bounds and the step are evaluated, each once, and the rounds
begin. -/
theorem yields_counted (hhost : host.KeepsNames) {counter : Ident} {first last step : Expr}
    {direction : Direction} {body : Block} {span : Span} {w : Value}
    (henv : env.here.index < s.store.scopes.size) :
    (Control.stmt (.counted counter first last step direction body span) env).Yields host settings d
        s w s' ↔
      Operands host settings d env [first, last, step] s w s' fun vs s₁ => ∃ a b k,
        vs = [a, b, k] ∧
          BeginsCount host settings d env counter direction body step.span span a b k s₁ w s' := by
  have hoperands : (Control.stmt (.counted counter first last step direction body span) env).Yields
      host settings d s w s' ↔
      Operands host settings d env [first, last, step] s w s' fun vs s₁ => ∃ a b k,
        vs = [a, b, k] ∧ ((s₁.start (.value k) d).beginCount counter a b k step.span direction body
          span env).Ends host settings d w s' := by
    rw [Control.Yields, ← Machine.ends_step]
    refine ends_operand (f := .countFirst counter last step direction body span env) rfl
      fun a s₁ _ => ?_
    refine ends_operand (f := .countLast counter a step direction body span env) rfl
      fun b s₂ _ => ?_
    refine ends_operand (f := .countStep counter a b step.span direction body span env) rfl
      fun k s₃ _ => ?_
    rw [operands_nil]
    simp [Machine.resume]
  rw [hoperands]
  refine or_congr_right (exists_congr fun vs => exists_congr fun s₁ => and_congr_right ?_)
  intro heval
  -- the scope of the loop is still there when its variable gets the first value
  have hsize := Nat.lt_of_lt_of_le henv (heval.size_le hhost)
  simp only [ends_beginCount hhost hsize]

end Statements

/-! ### Main result -/

section Main

variable {σ : Type}

/-- **Counted loops overwrite their variable.**  Let the answers of the host keep the
names of all scopes.

* A counted loop evaluates its bounds and its step, each once, and comes to what its
  rounds come to, if they are integers and the step is positive.
* A loop at whose head the variable has the value `c` comes to what its rounds come
  to.  Any signal that it comes to is one of its body: it refuses no value of the
  variable.
* If a round at the value `c` comes to no signal and leaves in the variable a value
  that is no integer, the variable gets the value after `c`, and the loop comes to
  what it comes to from there.  If there is no integer after `c`, the loop ends with
  null. -/
theorem counted_loops_overwrite (host : Host σ) (hhost : host.KeepsNames) (settings : Settings)
    (d : Nat) :
    (∀ env counter first last step direction body span w s s',
      env.here.index < s.store.scopes.size →
      ((Control.stmt (.counted counter first last step direction body span) env).Yields host
          settings d s w s' ↔
        Operands host settings d env [first, last, step] s w s' fun vs s₁ => ∃ a b k,
          vs = [a, b, k] ∧ BeginsCount host settings d env counter direction body step.span span
            a b k s₁ w s')) ∧
    ∀ loop c s, Counting.Holds loop c s.store →
      (∀ w s', (Control.count loop).Yields host settings d s w s' ↔
        loop.Rounds host settings d c s w s') ∧
      (∀ w s', (Control.count loop).Yields host settings d s w s' → w.isSignal = true →
        ∃ t, loop.Body host settings d t w s') ∧
      ∀ u s₁ v, loop.inRange c = true → loop.Body host settings d s u s₁ → u.isSignal = false →
        s₁.store.get? loop.env loop.counter.name = some v → v.kind ≠ .int →
        (Text.Fits (loop.nth c 1) →
          (loop.set s₁ (loop.nth c 1)).store.get? loop.env loop.counter.name =
            some (.int (loop.nth c 1) loop.counter.span) ∧
          ∀ w s', (Control.count loop).Yields host settings d s w s' ↔
            (Control.count loop).Yields host settings d (loop.set s₁ (loop.nth c 1)) w s') ∧
        (¬ Text.Fits (loop.nth c 1) →
          (Control.count loop).Yields host settings d s (.null loop.span) s₁) := by
  refine ⟨?_, ?_⟩
  · intro env counter first last step direction body span w s s' henv
    exact yields_counted hhost henv
  · intro loop c s hc
    refine ⟨fun w s' => Counting.yields_iff_rounds hhost hc, ?_, ?_⟩
    · intro w s' hyields hw
      exact ((Counting.yields_iff_rounds hhost hc).1 hyields).exists_body hw
    · intro u s₁ v hin hbody hu hv hkind
      have hresumes : loop.Resumes c s₁.store c := Counting.resumes_of_kind hv hkind
      refine ⟨fun hfits => ⟨?_, fun w s' => ?_⟩, fun hfits => ?_⟩
      · exact Store.get?_assign_self (.inr ((Store.isDefined_iff_get? _ _ _).2 ⟨v, hv⟩)) _
      · rw [hbody.yields_iff hu hc hin, Counting.countOn_of_fits hresumes hfits]
        exact Iff.rfl
      · rw [hbody.yields_iff hu hc hin, Counting.countOn_of_not_fits hresumes hfits]
        exact Machine.ends_value.2 ⟨rfl, rfl⟩

/-- Counts `i` from 1 to 3, and assigns a text to `i` in each round. -/
def spoiled : Counting :=
  ⟨⟨"i", default⟩, 3, 1, .increasing,
    ⟨[.assign (.ident ⟨"i", default⟩) (.str "a" default) default], default⟩, default, default⟩

/-- A state in which `i` has a value, after some rounds: each has made a scope. -/
def counted (v : Value) (rounds : Nat) : State Console :=
  ⟨⟨([("i", v)] :: List.replicate rounds []).toArray, #[], #[]⟩, {}⟩

/-- Each round leaves a text in the variable, and the loop ends with null and with the
integer 4 in the variable. -/
theorem counted_loops_overwrite_text :
    (∀ c ∈ [1, 2, 3], ∃ n u, spoiled.Body Console.host {} 0 (counted (.int c default) n) u
      (counted (.str "a" default) (n + 1))) ∧
    (Control.count spoiled).Yields Console.host {} 0 (counted (.int 1 default) 0) (.null default)
      (counted (.int 4 default) 3) := by
  have hone : spoiled.Body Console.host {} 0 (counted (.int 1 default) 0) (.null default)
      (counted (.str "a" default) 1) := ⟨6, rfl⟩
  have htwo : spoiled.Body Console.host {} 0 (counted (.int 2 default) 1) (.null default)
      (counted (.str "a" default) 2) := ⟨6, rfl⟩
  have hthree : spoiled.Body Console.host {} 0 (counted (.int 3 default) 2) (.null default)
      (counted (.str "a" default) 3) := ⟨6, rfl⟩
  refine ⟨by simpa using ⟨⟨0, _, hone⟩, ⟨1, _, htwo⟩, ⟨2, _, hthree⟩⟩, ?_⟩
  have hspec := (counted_loops_overwrite Console.host Console.keepsNames_host {} 0).2 spoiled
  have hnext : ∀ {c : Int} {s s₁ s' : State Console} {u w : Value}, spoiled.Holds c s.store →
      spoiled.inRange c = true → spoiled.Body Console.host {} 0 s u s₁ → u.isSignal = false →
      s₁.store.get? default "i" = some (.str "a" default) → Text.Fits (spoiled.nth c 1) →
      (Control.count spoiled).Yields Console.host {} 0 (spoiled.set s₁ (spoiled.nth c 1)) w s' →
      (Control.count spoiled).Yields Console.host {} 0 s w s' := by
    intro c s s₁ s' u w hc hin hbody hu hv hfits
    exact ((((hspec c s hc).2.2 u s₁ _ hin hbody hu hv (by decide)).1 hfits).2 w s').2
  refine hnext (c := 1) ⟨_, rfl⟩ rfl hone rfl rfl ⟨by decide, by decide⟩ ?_
  refine hnext (c := 2) ⟨_, rfl⟩ rfl htwo rfl rfl ⟨by decide, by decide⟩ ?_
  refine hnext (c := 3) ⟨_, rfl⟩ rfl hthree rfl rfl ⟨by decide, by decide⟩ ?_
  exact ((hspec 4 _ ⟨_, rfl⟩).1 _ _).2 (.past rfl)

end Main

end Dncl
