/-
Dncl/Proofs/CallDepth.lean

The count of active functions is exact.

The machine counts the functions that are active, and refuses a call when there
are as many as may be.  A function is active as long as the frame of its call is
on the stack.  So the count is right if it goes up and down with these frames:

    depth = number of calls among the frames.

Design.  `Counts` lists what a move can do to the frames and to the count, if it
does not leave a call.  A machine is *tallied* above some frames (`Tallied`) if these are still there and
the count has gone up by the calls above them.  Every step keeps it so until the
frames below are reached, whether with a value, a signal or a failure.
-/
import Dncl.Proofs.Scoping
import Dncl.Proofs.Unwind

namespace Dncl

namespace Machine

variable {σ : Type} {host : Host σ} {settings : Settings}

/-- How many functions are active: their calls are on the stack. -/
def active (m : Machine σ) : Nat :=
  m.frames.countP Frame.isCall

/-! ### Frames that are pushed and left -/

/-- The frames and the count stay as they are, or a frame is pushed; for a call
that is pushed one more is counted, if there may be one more. -/
inductive Counts (settings : Settings) (m m' : Machine σ) : Prop
  | same : m'.frames = m.frames → m'.depth = m.depth → Counts settings m m'
  | push {f : Frame} : f.isCall = false → m'.frames = f :: m.frames → m'.depth = m.depth →
      Counts settings m m'
  | call {span : Span} : m.depth < settings.maxDepth → m'.frames = .call span :: m.frames →
      m'.depth = m.depth + 1 → Counts settings m m'

/-- What a move does that leaves no call. -/
theorem Move.counts {hand : List Value} {code : Part → Prop} {m m' : Machine σ}
    (h : Move host settings hand code false m m') : Counts settings m m' := by
  cases h with
  | push hf | pushBlock b env hf => exact .push hf rfl rfl
  | call ref place span _ _ harity hdepth =>
    rw [apply_eq harity hdepth]
    exact .call hdepth rfl rfl
  | builtin function span _ =>
    rw [applyBuiltin]
    simp only
    split <;> exact .same rfl rfl
  | leave _ hleft | unwrap hleft => cases hleft
  | _ => exact .same rfl rfl

/-- A step with something to do. -/
theorem counts_step {m : Machine σ} (h : m.control.isBusy = true) :
    Counts settings m (m.step host settings) := by
  have hmove := @step_move σ host settings m (isHalted_eq_false_iff.2 (.inl h))
  rw [leavesCall, base, if_pos h, h] at hmove
  exact hmove.counts

/-- A frame that is no call is left with what is done then; a call is left with
a value or a failure, and one less is counted. -/
theorem step_leaves {m : Machine σ} {f : Frame} {frames : List Frame}
    (hc : m.control.isBusy = false) (hf : m.frames = f :: frames) :
    f.isCall = false ∧ Counts settings { m with frames := frames } (m.step host settings) ∨
      f.isCall = true ∧ (m.step host settings).frames = frames ∧
        (m.step host settings).depth = m.depth - 1 := by
  cases hcall : f.isCall with
  | false =>
    have hmove := @step_move σ host settings m (isHalted_eq_false_iff.2 (.inr (by simp [hf])))
    have hstays : m.leavesCall = false := by
      rw [leavesCall, hc, hf]
      exact hcall
    rw [hstays, base, if_neg (Bool.eq_false_iff.1 hc), hf] at hmove
    exact .inl ⟨rfl, hmove.counts⟩
  | true =>
    refine .inr ⟨rfl, ?_⟩
    obtain ⟨control, fs, store, depth, world⟩ := m
    obtain rfl : fs = f :: frames := hf
    cases f with
    | call span =>
      -- what leaves a call is a value or a failure; both count one less
      cases control with
      | value v =>
        rw [step]
        simp only
        split <;> exact ⟨rfl, rfl⟩
      | abort failure => exact ⟨rfl, rfl⟩
      | _ => cases hc
    | _ => cases hcall

/-! ### Tallied machines -/

/-- The frames of `below` are still there, the count has gone up from `d` by the
calls above them, and it is not above the limit, unless `d` was. -/
structure Tallied (settings : Settings) (below : List Frame) (d : Nat) (m : Machine σ) : Prop where
  frames : ∃ above, m.frames = above ++ below ∧ m.depth = d + above.countP Frame.isCall
  limit : m.depth ≤ max settings.maxDepth d

section Tallied

variable {below : List Frame} {d : Nat} {m m' : Machine σ}

theorem tallied_self (m : Machine σ) : Tallied settings m.frames m.depth m :=
  ⟨⟨[], rfl, rfl⟩, Nat.le_max_right _ _⟩

theorem Tallied.counts (h : Tallied settings below d m) (hcounts : Counts settings m m') :
    Tallied settings below d m' := by
  obtain ⟨⟨above, hframes, hdepth⟩, hlimit⟩ := h
  cases hcounts with
  | same hf hd => exact ⟨⟨above, hf.trans hframes, hd.trans hdepth⟩, hd ▸ hlimit⟩
  | @push f hcall hf hd =>
    refine ⟨⟨f :: above, ?_, ?_⟩, hd ▸ hlimit⟩
    · rw [hf, hframes]
      rfl
    · rw [hd, hdepth, List.countP_cons, hcall, if_neg Bool.false_ne_true, Nat.add_zero]
  | @call span hlt hf hd =>
    refine ⟨⟨.call span :: above, ?_, ?_⟩, ?_⟩
    · rw [hf, hframes]
      rfl
    · rw [hd, hdepth, List.countP_cons, Frame.isCall, if_pos rfl, Nat.add_assoc]
    · rw [hd]
      exact Nat.le_trans hlt (Nat.le_max_left _ _)

theorem Tallied.step (h : Tallied settings below d m)
    (hinside : m.control.isBusy = true ∨ below.length < m.frames.length) :
    Tallied settings below d (m.step host settings) := by
  cases hbusy : m.control.isBusy with
  | true => exact h.counts (counts_step hbusy)
  | false =>
    rw [hbusy] at hinside
    have hlength := hinside.resolve_left Bool.false_ne_true
    obtain ⟨⟨above, hframes, hdepth⟩, hlimit⟩ := h
    cases above with
    | nil =>
      rw [hframes] at hlength
      exact absurd hlength (Nat.lt_irrefl _)
    | cons f above =>
      rw [List.countP_cons] at hdepth
      rcases @step_leaves σ host settings m f (above ++ below) hbusy hframes with
        ⟨hcall, hcounts⟩ | ⟨hcall, hf, hd⟩
      · rw [hcall, if_neg Bool.false_ne_true, Nat.add_zero] at hdepth
        have hbelow : Tallied settings below d { m with frames := above ++ below } :=
          ⟨⟨above, rfl, hdepth⟩, hlimit⟩
        exact hbelow.counts hcounts
      · rw [hcall, if_pos rfl] at hdepth
        refine ⟨⟨above, hf, by omega⟩, ?_⟩
        rw [hd]
        exact Nat.le_trans (Nat.sub_le _ _) hlimit

/-- As long as what was begun is not left, the machine is tallied above the
frames it began with. -/
theorem tallied_run {k : Nat} (hk : m.Inside host settings k) :
    Tallied settings m.frames m.depth (m.run host settings k) := by
  induction k with
  | zero => exact m.tallied_self
  | succ k ih =>
    rw [run_succ]
    exact (ih fun j hj => hk j (Nat.lt_succ_of_lt hj)).step (hk k (Nat.lt_succ_self k))

/-- A whole run. -/
theorem Tallied.run (h : Tallied settings [] d m) (n : Nat) :
    Tallied settings [] d (m.run host settings n) := by
  induction n with
  | zero => exact h
  | succ n ih =>
    rw [run_succ]
    cases hhalt : (m.run host settings n).isHalted with
    | true =>
      rw [step_of_isHalted hhalt]
      exact ih
    | false =>
      -- a machine that has neither a frame nor something to do has halted
      exact ih.step ((isHalted_eq_false_iff.1 hhalt).imp_right List.length_pos_iff.2)

theorem Tallied.depth_eq_active (h : Tallied settings [] 0 m) : m.depth = m.active := by
  obtain ⟨above, hframes, hdepth⟩ := h.frames
  rw [hdepth, active, hframes, List.append_nil, Nat.zero_add]

end Tallied

theorem tallied_load (s : Session σ) (p : Program) : Tallied settings [] 0 (load s p) := by
  refine ⟨⟨(load s p).frames, (List.append_nil _).symm, ?_⟩, ?_⟩
  · have hcalls : (load s p).frames.countP Frame.isCall = 0 :=
      List.countP_eq_zero.2 fun f hf => Bool.eq_false_iff.1 (load_frames_no_call s p f hf)
    rw [hcalls, load]
    split <;> rfl
  · rw [load]
    split <;> exact Nat.zero_le _

/-! ### Main result -/

/-- The machine hands a call the last value that it has waited for: a callee is
applied to arguments, above the frames `below`. -/
inductive Applies (m : Machine σ) (callee : Value) : List Value → Span → List Frame → Prop
  | arguments {v : Value} {done : List Value} {env : Env} {span : Span} {below : List Frame} :
      m.control = .value v → v.isSignal = false →
      m.frames = .collect (.call callee span) done [] env :: below →
      Applies m callee (v :: done).reverse span below
  | none {env : Env} {span : Span} {below : List Frame} :
      m.control = .value callee → callee.isSignal = false →
      m.frames = .callee [] env span :: below → Applies m callee [] span below

section Applies

variable {m : Machine σ} {callee : Value} {arguments : List Value} {span : Span}
  {below : List Frame}

theorem Applies.step_eq (h : m.Applies callee arguments span below) :
    m.step host settings =
      ({ m with frames := below } : Machine σ).apply settings callee arguments span := by
  obtain ⟨control, frames, store, depth, world⟩ := m
  cases h with
  | arguments hc hv hf =>
    obtain rfl : control = _ := hc
    obtain rfl : frames = _ := hf
    rw [step]
    simp only [hv]
    rfl
  | none hc hv hf =>
    obtain rfl : control = _ := hc
    obtain rfl : frames = _ := hf
    rw [step]
    simp only [hv]
    rfl

end Applies

/-- The machine at the start of a program, if the count of active functions is
not reset. -/
def loadAt (d : Nat) (s : Session σ) (p : Program) : Machine σ :=
  { load s p with depth := d }

/-- The counts that a machine can have after programs that it has run one after
the other, each to its end, with a value or with a failure. -/
inductive LeftCount (host : Host σ) (settings : Settings) : Nat → Prop
  | new : LeftCount host settings 0
  | after {d : Nat} (s : Session σ) (p : Program) (n : Nat) : LeftCount host settings d →
      ((loadAt d s p).run host settings n).isHalted = true →
      LeftCount host settings ((loadAt d s p).run host settings n).depth

theorem loadAt_zero (s : Session σ) (p : Program) : loadAt 0 s p = load s p := by
  rw [loadAt, load]
  split <;> rfl

theorem Tallied.depth_of_isHalted {d : Nat} {m : Machine σ} (h : Tallied settings [] d m)
    (hhalt : m.isHalted = true) : m.depth = d := by
  obtain ⟨above, hframes, hdepth⟩ := h.frames
  have hnil : m.frames = [] := by
    rw [isHalted] at hhalt
    split at hhalt
    · exact List.isEmpty_iff.1 hhalt
    · exact List.isEmpty_iff.1 hhalt
    · cases hhalt
  rw [hnil, List.append_nil] at hframes
  rw [hdepth, ← hframes]
  rfl

/-- No program leaves a count behind. -/
theorem LeftCount.eq_zero {d : Nat} (h : LeftCount host settings d) : d = 0 := by
  induction h with
  | new => rfl
  | after s p n _ hhalt ih =>
    subst ih
    rw [loadAt_zero] at hhalt ⊢
    exact ((tallied_load s p).run n).depth_of_isHalted hhalt

/-- **The count of active functions is exact.**  Let `m` be any state in the run
of a program.

* The count is the number of functions that are active, and it is not above the
  limit.
* If what `m` has begun is left after `k` steps, with a value, a signal or a
  failure, the count is what it was in `m`.
* If `m` applies a function to as many arguments as it has parameters, the call
  is refused, and nothing else is done, exactly if as many functions are active
  as may be; otherwise its body is begun.
* The count that other programs have left is the count of a new machine, so the
  program runs as it does there. -/
theorem call_depth_exact (host : Host σ) (settings : Settings) (s : Session σ) (p : Program)
    (n : Nat) (m : Machine σ) (hm : (load s p).run host settings n = m) :
    (m.depth = m.active ∧ m.depth ≤ settings.maxDepth) ∧
    (∀ k, m.Inside host settings k → (m.run host settings k).control.isBusy = false →
      (m.run host settings k).frames.length ≤ m.frames.length →
      (m.run host settings k).depth = m.depth) ∧
    (∀ ref place arguments span below, m.Applies (.function ref place) arguments span below →
      arguments.length = (m.store.closure ref).literal.params.length →
      (m.step host settings =
        { m with
          control := .value ((Fault.tooDeep settings.maxDepth).valueAt span)
          frames := below } ↔ m.active = settings.maxDepth) ∧
      (m.active ≠ settings.maxDepth → ∃ env,
        (m.step host settings).control = .statements (m.store.closure ref).literal.body.statements
          (m.store.closure ref).literal.body.span env ∧
        (m.step host settings).frames = .call span :: below)) ∧
    ∀ d, LeftCount host settings d → ∀ j,
      (loadAt d s p).run host settings j = (load s p).run host settings j := by
  have htallied : Tallied settings [] 0 m := hm ▸ (tallied_load s p).run n
  have hactive := htallied.depth_eq_active
  have hlimit : m.depth ≤ settings.maxDepth := by
    have hmax := htallied.limit
    rwa [Nat.max_eq_left (Nat.zero_le _)] at hmax
  refine ⟨⟨hactive, hlimit⟩, ?_, ?_, ?_⟩
  · intro k hk _ hback
    obtain ⟨above, hframes, hdepth⟩ := (tallied_run hk).frames
    -- no frame is left above those of `m`, so no call is counted above
    have hnil : above = [] := by
      rw [hframes, List.length_append] at hback
      exact List.eq_nil_of_length_eq_zero (by omega)
    rw [hdepth, hnil]
    rfl
  · intro ref place arguments span below happlies harity
    rw [happlies.step_eq]
    by_cases hfull : m.active = settings.maxDepth
    · refine ⟨iff_of_true ?_ hfull, fun hne => absurd hfull hne⟩
      rw [apply, if_neg (not_not_intro harity), if_pos (Nat.le_of_eq (hactive.trans hfull).symm)]
      rfl
    · have hless : m.depth < settings.maxDepth := by omega
      rw [apply_eq (m := { m with frames := below }) harity hless]
      -- a call that is made has statements to run, and no value
      refine ⟨iff_of_false ?_ hfull, fun _ => ⟨_, rfl, rfl⟩⟩
      intro hrefused
      cases congrArg control hrefused
  · intro d hd j
    rw [hd.eq_zero, loadAt_zero]

/-- A function that calls itself, and a call of it. -/
def callsItself : Program :=
  ⟨[.define ⟨"f", default⟩ ⟨[], ⟨[.expr (.call (.ident ⟨"f", default⟩) [] default)], default⟩,
      default⟩ default,
    .expr (.call (.ident ⟨"f", default⟩) [] default)], default⟩

/-- A function that asks the host for a built-in function, and a call of it. -/
def callsHost : Program :=
  ⟨[.expr (.call (.function ⟨[], ⟨[.expr (.builtin .print [] default)], default⟩, default⟩) []
    default)], default⟩

/-- A host that gives back a value from every built-in function, which makes a
program fail. -/
def givesBackHost : Host Unit where
  builtin _ _ span st w := (.returned (.null span) span, st, w)
  command _ span st w := (.null span, st, w)

/-- At most one function may be active.  The second call is refused after ten
steps, and the statement with the first one is left with the count that it found.
The program does the same on a machine on which another one has failed inside a
function. -/
theorem call_depth_exact_refused :
    (∃ m, (load (Session.new ()) callsItself).run givesBackHost ⟨.one, 1⟩ 10 = m ∧
      m.depth = 1 ∧ m.active = 1 ∧
      m.step givesBackHost ⟨.one, 1⟩ =
        { m with
          control := .value ((Fault.tooDeep 1).valueAt default)
          frames := m.frames.tail }) ∧
    (∃ m, (load (Session.new ()) callsItself).run givesBackHost ⟨.one, 1⟩ 2 = m ∧
      m.Inside givesBackHost ⟨.one, 1⟩ 11 ∧ (m.run givesBackHost ⟨.one, 1⟩ 11).depth = m.depth) ∧
    ∃ d, ((load (Session.new ()) callsHost).run givesBackHost ⟨.one, 1⟩ 10).outcome? =
        some (.error (.unexpectedReturn .print default)) ∧
      ((loadAt 0 (Session.new ()) callsHost).run givesBackHost ⟨.one, 1⟩ 10).depth = d ∧
      ∀ j, (loadAt d (Session.new ()) callsItself).run givesBackHost ⟨.one, 1⟩ j =
        (load (Session.new ()) callsItself).run givesBackHost ⟨.one, 1⟩ j := by
  have hspec := call_depth_exact givesBackHost ⟨.one, 1⟩ (Session.new ()) callsItself
  refine ⟨⟨_, rfl, rfl, rfl, ?_⟩, ⟨_, rfl, ?_⟩, ⟨_, rfl, rfl, ?_⟩⟩
  · obtain ⟨hrefused, -⟩ := (hspec 10 _ rfl).2.2.1 ⟨0⟩ default [] default _ (.none rfl rfl rfl) rfl
    exact hrefused.2 rfl
  · have hinside : ((load (Session.new ()) callsItself).run givesBackHost ⟨.one, 1⟩ 2).Inside
        givesBackHost ⟨.one, 1⟩ 11 := by decide +kernel
    exact ⟨hinside, (hspec 2 _ rfl).2.1 11 hinside rfl (Nat.le_refl _)⟩
  · exact (hspec 0 _ rfl).2.2.2 _ (.after (Session.new ()) callsHost 10 .new rfl)

end Machine

end Dncl
