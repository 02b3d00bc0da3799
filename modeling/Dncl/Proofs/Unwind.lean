/-
Dncl/Proofs/Unwind.lean

Signals leave everything they were raised in.

An error that is handed on at any moment of a run is what the program comes
to, and nothing is changed any more from that moment on.  A value that is
given back leaves the body of the function that is active innermost, and is
the value of the call that began this body; outside every function it is the
value of the program.

* `run_past` takes a signal over frames that are no calls, one a step;
* `run_of_isError` takes an error over all frames;
* `call_began` finds, for a call that is on the stack, the step of the run
  that pushed it, and says that it has been there ever since.

The last one ties a call on the stack to the application it stems from: the
frames below it are those that were there when the function was applied.
-/
import Dncl.Proofs.Run
import Dncl.Console

namespace Dncl

variable {v : Value} {k n : Nat}

namespace Machine

variable {σ : Type} {host : Host σ} {settings : Settings}

/-! ### Signals and frames -/

/-- A signal is handed to the topmost frame only to leave it. -/
theorem step_of_isSignal {m : Machine σ} {f : Frame} {frames : List Frame}
    (hc : m.control = .value v) (hv : v.isSignal = true) (hf : m.frames = f :: frames) :
    m.step host settings = ({ m with frames := frames } : Machine σ).unwind v f := by
  rw [step, hc]
  simp only [hf, hv, if_true]

/-- A frame that is no call is left by a signal at once. -/
theorem step_past {m : Machine σ} {f : Frame} {frames : List Frame} (hc : m.control = .value v)
    (hv : v.isSignal = true) (hf : m.frames = f :: frames) (hcall : f.isCall = false) :
    m.step host settings = { m with frames := frames } := by
  rw [step_of_isSignal hc hv hf]
  obtain ⟨control, fs, store, depth, world⟩ := m
  obtain rfl : control = .value v := hc
  cases f with
  | call span => cases hcall
  | _ => rfl

/-- A call is left by a signal with what the signal carries. -/
theorem step_out {m : Machine σ} {span : Span} {frames : List Frame} (hc : m.control = .value v)
    (hv : v.isSignal = true) (hf : m.frames = .call span :: frames) :
    m.step host settings =
      { m with control := .value v.unwrap, frames := frames, depth := m.depth - 1 } := by
  rw [step_of_isSignal hc hv hf]
  rfl

theorem unwrap_of_isError (hv : v.isError = true) : v.unwrap = v := by
  cases v with
  | returned w span => cases hv
  | _ => rfl

theorem isSignal_of_isError (hv : v.isError = true) : v.isSignal = true := by
  rw [Value.isSignal, hv, Bool.true_or]

/-- Over frames that are no calls a signal passes unchanged, one frame a
step. -/
theorem run_past {m : Machine σ} {inner outer : List Frame} (hc : m.control = .value v)
    (hv : v.isSignal = true) (hf : m.frames = inner ++ outer)
    (hcalls : ∀ f ∈ inner, f.isCall = false) :
    m.run host settings inner.length = { m with frames := outer } := by
  induction inner generalizing m with
  | nil =>
    obtain rfl : m.frames = outer := hf
    rfl
  | cons f inner ih =>
    have hfirst : m.step host settings = { m with frames := inner ++ outer } :=
      step_past hc hv hf (hcalls f List.mem_cons_self)
    rw [List.length_cons, Nat.add_comm, run_add, run_succ]
    show (m.step host settings).run host settings inner.length = _
    rw [hfirst]
    exact ih hc rfl fun g hg => hcalls g (List.mem_cons_of_mem f hg)

/-- An error passes over all frames, and nothing but the count of active
functions is changed. -/
theorem run_of_isError {m : Machine σ} (hc : m.control = .value v) (hv : v.isError = true) :
    ∃ depth, m.run host settings m.frames.length = { m with frames := [], depth := depth } := by
  obtain ⟨control, frames, store, depth, world⟩ := m
  obtain rfl : control = .value v := hc
  induction frames generalizing depth with
  | nil => exact ⟨depth, rfl⟩
  | cons f frames ih =>
    have hsignal := isSignal_of_isError hv
    -- the frame is left, with the same error, whether it is a call or not
    have hfirst : ∃ d, step host settings ⟨.value v, f :: frames, store, depth, world⟩ =
        ⟨.value v, frames, store, d, world⟩ := by
      cases hcall : f.isCall with
      | false => exact ⟨depth, step_past rfl hsignal rfl hcall⟩
      | true =>
        cases f with
        | call span =>
          refine ⟨depth - 1, ?_⟩
          rw [step_out rfl hsignal rfl]
          simp only [unwrap_of_isError hv]
        | _ => cases hcall
    obtain ⟨d, hfirst⟩ := hfirst
    obtain ⟨d', hrest⟩ := ih d
    refine ⟨d', ?_⟩
    rw [List.length_cons, Nat.add_comm, run_add, run_succ]
    show (step host settings ⟨.value v, f :: frames, store, depth, world⟩).run host settings _ = _
    rw [hfirst]
    exact hrest

/-! ### Halting -/

/-- All moments at which a run has halted are the same. -/
theorem run_eq_of_isHalted {m : Machine σ} {a b : Nat}
    (ha : (m.run host settings a).isHalted = true) (hb : (m.run host settings b).isHalted = true) :
    m.run host settings a = m.run host settings b := by
  rcases Nat.le_total a b with h | h
  · obtain ⟨c, rfl⟩ := Nat.exists_eq_add_of_le h
    rw [run_add, run_of_isHalted ha]
  · obtain ⟨c, rfl⟩ := Nat.exists_eq_add_of_le h
    rw [run_add, run_of_isHalted hb]

theorem isHalted_of_outcome {m : Machine σ} {result : Except Fatal Value}
    (h : m.outcome? = some result) : m.isHalted = true := by
  rw [outcome?.eq_def] at h
  split at h
  · rename_i hf hc
    simp [isHalted, hf, hc]
  · rename_i hf hc
    simp [isHalted, hf, hc]
  · cases h

/-- What a program comes to is read off any moment at which its run has
halted. -/
theorem session_run_eq {s s' : Session σ} {p : Program} {steps : Nat} {result : Except Fatal Value}
    {m : Machine σ} (hm : (load s p).run host settings n = m) (hhalt : m.isHalted = true)
    (hrun : s.run host settings steps p = (some result, s')) :
    m.outcome? = some result ∧ s'.store = m.store ∧ s'.world = m.world := by
  obtain ⟨hout, rfl⟩ := Prod.mk.inj hrun
  have heq : (load s p).run host settings steps = m := by
    rw [← hm] at hhalt ⊢
    exact run_eq_of_isHalted (isHalted_of_outcome hout) hhalt
  rw [heq] at hout
  exact ⟨hout, congrArg store heq, congrArg world heq⟩

/-! ### Where a call on the stack comes from -/

/-- A move leaves the frames as they are or pushes one, and a frame for a call
only where a function is applied. -/
theorem Move.frames {hand : List Value} {code : Part → Prop} {left : Bool}
    {m m' : Machine σ} (h : Move host settings hand code left m m') :
    m'.frames = m.frames ∨ (∃ f, f.isCall = false ∧ m'.frames = f :: m.frames) ∨
      ∃ callee arguments span, m' = m.apply settings callee arguments span ∧
        m'.frames = .call span :: m.frames := by
  cases h with
  | push hf _ _ => exact .inr (.inl ⟨_, hf, rfl⟩)
  | pushBlock b env hf _ => exact .inr (.inl ⟨_, hf, rfl⟩)
  | call ref place span _ _ harity hdepth =>
    exact .inr (.inr ⟨_, _, _, rfl, congrArg Machine.frames (apply_eq harity hdepth)⟩)
  | builtin function span _ =>
    left
    rw [applyBuiltin]
    simp only
    split <;> rfl
  | _ => exact .inl rfl

theorem frames_base_suffix (m : Machine σ) : m.base.frames <:+ m.frames := by
  rw [base]
  split
  · exact List.suffix_refl _
  · exact List.tail_suffix _

/-- In the run of `m`, the call at `span` on top of the frames `outer` was
begun by the step after the first `i`, and it is open up to step `k`. -/
structure CallOpen (host : Host σ) (settings : Settings) (m : Machine σ) (span : Span)
    (outer : List Frame) (i k : Nat) : Prop where
  earlier : i < k
  applied : ∃ callee arguments, m.run host settings (i + 1) =
    (m.run host settings i).base.apply settings callee arguments span
  below : (m.run host settings i).base.frames = outer
  stays : ∀ j, i < j → j ≤ k → (.call span :: outer) <:+ (m.run host settings j).frames

/-- A call that is on the stack was pushed by an application, and has been
there ever since. -/
theorem call_began {m : Machine σ} (hm : ∀ f ∈ m.frames, f.isCall = false) {span : Span}
    {outer : List Frame} (h : (.call span :: outer) <:+ (m.run host settings k).frames) :
    ∃ i, CallOpen host settings m span outer i k := by
  induction k with
  | zero =>
    have hmem : Frame.call span ∈ m.frames := h.subset List.mem_cons_self
    exact absurd (hm _ hmem) (by simp [Frame.isCall])
  | succ k ih =>
    -- a call that was there a step ago is found by induction and is still open
    have older : (.call span :: outer) <:+ (m.run host settings k).frames →
        ∃ i, CallOpen host settings m span outer i (k + 1) := by
      intro hk
      obtain ⟨i, hearlier, happlied, hbelow, hstays⟩ := ih hk
      refine ⟨i, by omega, happlied, hbelow, ?_⟩
      intro j hij hj
      rcases Nat.lt_or_ge j (k + 1) with hlt | hge
      · exact hstays j hij (by omega)
      · obtain rfl : j = k + 1 := by omega
        exact h
    cases hhalt : (m.run host settings k).isHalted with
    | true =>
      apply older
      rw [run_succ, step_of_isHalted hhalt] at h
      exact h
    | false =>
      have hbase := frames_base_suffix (m.run host settings k)
      have hmove : Move host settings _ _ _ _ ((m.run host settings k).step host settings) :=
        step_move _ hhalt
      rw [← run_succ] at hmove
      rcases hmove.frames with
        hsame | ⟨f, hcall, hpush⟩ | ⟨callee, arguments, place, hcalled, hpush⟩
      · rw [hsame] at h
        exact older (h.trans hbase)
      · rw [hpush] at h
        rcases List.suffix_cons_iff.1 h with heq | hrest
        · obtain ⟨rfl, -⟩ := List.cons.inj heq
          cases hcall
        · exact older (hrest.trans hbase)
      · have hk := h
        rw [hpush] at h
        rcases List.suffix_cons_iff.1 h with heq | hrest
        · -- the call is the one that was begun just now
          obtain ⟨hplace, hbelow⟩ := List.cons.inj heq
          obtain rfl : span = place := Frame.call.inj hplace
          refine ⟨k, by omega, ⟨callee, arguments, hcalled⟩, hbelow.symm, ?_⟩
          intro j hkj hj
          obtain rfl : j = k + 1 := by omega
          exact hk
        · exact older (hrest.trans hbase)

/-! ### Main result -/

theorem load_frames_no_call (s : Session σ) (p : Program) :
    ∀ f ∈ (load s p).frames, f.isCall = false := by
  intro f hf
  rw [load] at hf
  split at hf
  · exact absurd hf List.not_mem_nil
  · obtain rfl := List.mem_singleton.1 hf
    rfl

/-- A run that goes from `m` straight to its end leaves the store and the
world of `m`. -/
theorem ends_of_run {s : Session σ} {p : Program} {depth : Nat} {m : Machine σ}
    (hm : (load s p).run host settings k = m) (hc : m.control = .value v)
    (hend : m.run host settings n = { m with frames := [], depth := depth }) :
    (∃ steps s', s.run host settings steps p = (some (.ok v.unwrap), s')) ∧
    ∀ steps result s', s.run host settings steps p = (some result, s') →
      result = .ok v.unwrap ∧ s'.store = m.store ∧ s'.world = m.world := by
  have hrun : (load s p).run host settings (k + n) = { m with frames := [], depth := depth } := by
    rw [run_add, hm, hend]
  have hout : ({ m with frames := [], depth := depth } : Machine σ).outcome? =
      some (.ok v.unwrap) := by
    simp only [outcome?, hc]
  refine ⟨⟨k + n, ⟨m.store, s.env, m.world⟩, ?_⟩, ?_⟩
  · rw [Session.run, hrun, hout]
  · intro steps result s' hs
    obtain ⟨hresult, hstore, hworld⟩ := session_run_eq hrun (isHalted_of_outcome hout) hs
    rw [hout] at hresult
    exact ⟨(Option.some.inj hresult).symm, hstore, hworld⟩

/-- **Signals are never swallowed.**  Let `m` be any state in the run of a
program.  If an error is handed on in `m`, the program ends, it comes to this
very error, and it leaves the store and the world of `m`.  If a value `r` is
given back in `m` inside a function, the innermost call that is open, begun by
some earlier application, comes to `r`: the frames above it are dropped one by
one and nothing else happens.  If a value is given back outside every
function, the program ends and comes to this value. -/
theorem signals_never_swallowed (host : Host σ) (settings : Settings) (s : Session σ)
    (p : Program) (k : Nat) (m : Machine σ) (hm : (load s p).run host settings k = m) :
    (∀ v, m.control = .value v → v.isError = true →
      (∃ steps s', s.run host settings steps p = (some (.ok v), s')) ∧
      ∀ steps result s', s.run host settings steps p = (some result, s') →
        result = .ok v ∧ s'.store = m.store ∧ s'.world = m.world) ∧
    (∀ r span inner callSpan outer, m.control = .value (.returned r span) →
      m.frames = inner ++ .call callSpan :: outer → (∀ f ∈ inner, f.isCall = false) →
      (∃ i, CallOpen host settings (load s p) callSpan outer i k) ∧
      (∀ j, j ≤ inner.length → m.run host settings j = { m with frames := m.frames.drop j }) ∧
      m.run host settings (inner.length + 1) =
        { m with control := .value r, frames := outer, depth := m.depth - 1 }) ∧
    (∀ r span, m.control = .value (.returned r span) → (∀ f ∈ m.frames, f.isCall = false) →
      (∃ steps s', s.run host settings steps p = (some (.ok r), s')) ∧
      ∀ steps result s', s.run host settings steps p = (some result, s') →
        result = .ok r ∧ s'.store = m.store ∧ s'.world = m.world) := by
  refine ⟨?_, ?_, ?_⟩
  · intro v hc hv
    obtain ⟨depth, hend⟩ := run_of_isError hc hv
    have hends := ends_of_run hm hc hend
    rwa [unwrap_of_isError hv] at hends
  · intro r span inner callSpan outer hc hf hinner
    refine ⟨?_, ?_, ?_⟩
    · apply call_began (load_frames_no_call s p)
      rw [hm, hf]
      exact List.suffix_append _ _
    · intro j hj
      -- the first `j` frames are no calls, and they are passed in `j` steps
      have hsplit : m.frames = inner.take j ++ m.frames.drop j := by
        rw [hf, List.drop_append_of_le_length hj, ← List.append_assoc, List.take_append_drop]
      have hpast :
          m.run host settings (inner.take j).length = { m with frames := m.frames.drop j } :=
        run_past hc rfl hsplit fun f h => hinner f (List.mem_of_mem_take h)
      rwa [List.length_take_of_le hj] at hpast
    · have hat : m.run host settings inner.length = { m with frames := .call callSpan :: outer } :=
        run_past hc rfl hf hinner
      rw [run_succ, hat]
      exact step_out (m := { m with frames := .call callSpan :: outer }) hc rfl rfl
  · intro r span hc hcalls
    have hpast : m.run host settings m.frames.length = { m with frames := [] } :=
      run_past hc rfl (List.append_nil m.frames).symm hcalls
    exact ends_of_run hm hc hpast

/-- A function that gives back 5 before a further statement, called at once;
then a sign before a string. -/
def givesBackEarly : Program :=
  ⟨[.expr (.call (.function ⟨[], ⟨[.giveBack (.int 5 default) default, .expr (.int 6 default)],
      default⟩, default⟩) [] default),
    .expr (.prefixOp (.symbol .minus) (.str "a" default) default)], default⟩

theorem signals_never_swallowed_early :
    (∃ m : Machine Console, (load (Session.new {}) givesBackEarly).run Console.host {} 8 = m ∧
      m.control = .value (.returned (.int 5 default) default) ∧
      m.run Console.host {} 2 =
        { m with
          control := .value (.int 5 default)
          frames := [.program givesBackEarly.statements.tail ⟨⟨0⟩, []⟩]
          depth := m.depth - 1 }) ∧
    ∃ steps s', (Session.new {}).run Console.host {} steps givesBackEarly =
      (some (.ok ((Fault.operand (.symbol .minus) .str).valueAt default)), s') := by
  refine ⟨⟨_, rfl, rfl, ?_⟩, ?_⟩
  · have hspec := signals_never_swallowed Console.host {} (Session.new {}) givesBackEarly 8 _ rfl
    refine (hspec.2.1 _ _ [.sequence [.expr (.int 6 default)] default ⟨⟨1⟩, [⟨0⟩]⟩] default _
      rfl rfl ?_).2.2
    intro f hf
    rw [List.mem_singleton.1 hf]
    rfl
  · have hspec := signals_never_swallowed Console.host {} (Session.new {}) givesBackEarly 15 _ rfl
    exact (hspec.1 _ rfl rfl).1

end Machine

end Dncl
