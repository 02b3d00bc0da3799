/-
Dncl/Proofs/Range.lean

Counted loops run exactly through their range.

A counted loop gives its variable the values

    first, first + step, first + 2 * step, ...

(or counts down) as long as they are not past the last value.  The variable is an
integer of 64 bits, and the sum that leads past the last value need not be one:
then the loop ends without it.

Design.  `Counting.nth` is the arithmetic sequence, in exact integers.  A loop
*stands* at its head with a value (`Counting.Stands`).  From there one round is
taken (`Counting.Stands.round`): the body runs above the frames of the loop, and
the loop stands at the next value or has ended.  The whole loop is an induction on
how many values of the sequence are left.
-/
import Dncl.Proofs.CallDepth
import Dncl.Proofs.Forest
import Dncl.Proofs.Termination

namespace Dncl

variable {a b count k : Nat} {c : Int}

/-! ### The values of the variable -/

/-- Whether a number is an integer of a program. -/
def Text.Fits (n : Int) : Prop :=
  Text.minInt ≤ n ∧ n ≤ Text.maxInt

namespace Counting

variable {loop : Counting}

/-- The value of the variable in round `k` of a loop that begins with `first`. -/
def nth (loop : Counting) (first : Int) (k : Nat) : Int :=
  match loop.direction with
  | .increasing => first + k * loop.step
  | .decreasing => first - k * loop.step

theorem nth_zero (loop : Counting) (first : Int) : loop.nth first 0 = first := by
  rw [nth]
  split <;> simp

/-- One round less, from the value after the first. -/
theorem nth_succ (loop : Counting) (first : Int) (k : Nat) :
    loop.nth first (k + 1) = loop.nth (loop.nth first 1) k := by
  obtain ⟨counter, last, step, direction, body, span, env⟩ := loop
  have hmul : ((k + 1 : Nat) : Int) * step = step + k * step := by
    rw [Int.natCast_add, Int.add_mul, Int.natCast_one, Int.one_mul, Int.add_comm]
  cases direction with
  | increasing =>
    show first + ((k + 1 : Nat) : Int) * step = first + (1 : Nat) * step + k * step
    rw [hmul]
    omega
  | decreasing =>
    show first - ((k + 1 : Nat) : Int) * step = first - (1 : Nat) * step - k * step
    rw [hmul]
    omega

/-- The next value, if it is an integer of a program. -/
theorem after?_eq_checked (loop : Counting) (c : Int) :
    loop.after? c = Text.checked (loop.nth c 1) := by
  obtain ⟨counter, last, step, direction, body, span, env⟩ := loop
  cases direction <;> simp [after?, nth]

theorem after?_eq_some (h : Text.Fits (loop.nth c 1)) : loop.after? c = some (loop.nth c 1) := by
  rw [after?_eq_checked]
  exact if_pos h

theorem after?_eq_none (h : ¬ Text.Fits (loop.nth c 1)) : loop.after? c = none := by
  rw [after?_eq_checked]
  exact if_neg h

/-- The values in the range are the first ones of the sequence. -/
theorem exists_rounds (loop : Counting) (hstep : 0 < loop.step) (first : Int) :
    ∃ count : Nat, ∀ k, k < count ↔ loop.inRange (loop.nth first k) = true := by
  obtain ⟨counter, last, step, direction, body, span, env⟩ := loop
  cases direction with
  | increasing =>
    refine ⟨((last - first) / step + 1).toNat, fun k => ?_⟩
    have hdiv : (k : Int) ≤ (last - first) / step ↔ (k : Int) * step ≤ last - first :=
      Int.le_ediv_iff_mul_le hstep
    have hrange : inRange ⟨counter, last, step, .increasing, body, span, env⟩
        (first + k * step) = true ↔ first + k * step ≤ last := decide_eq_true_iff
    show _ ↔ inRange _ (first + k * step) = true
    rw [hrange]
    omega
  | decreasing =>
    refine ⟨((first - last) / step + 1).toNat, fun k => ?_⟩
    have hdiv : (k : Int) ≤ (first - last) / step ↔ (k : Int) * step ≤ first - last :=
      Int.le_ediv_iff_mul_le hstep
    have hrange : inRange ⟨counter, last, step, .decreasing, body, span, env⟩
        (first - k * step) = true ↔ last ≤ first - k * step := decide_eq_true_iff
    show _ ↔ inRange _ (first - k * step) = true
    rw [hrange]
    omega

/-- A value that is no integer of a program is past the last one. -/
theorem inRange_of_not_fits (hstep : 0 < loop.step) (hlast : Text.Fits loop.last) (hc : Text.Fits c)
    (h : ¬ Text.Fits (loop.nth c 1)) : loop.inRange (loop.nth c 1) = false := by
  obtain ⟨counter, last, step, direction, body, span, env⟩ := loop
  cases direction with
  | increasing =>
    have hnth : nth ⟨counter, last, step, .increasing, body, span, env⟩ c 1 = c + step := by
      simp [nth]
    rw [hnth] at h ⊢
    simp only [Text.Fits] at hlast hc h hstep
    have hpast : ¬ c + step ≤ last := by omega
    exact decide_eq_false hpast
  | decreasing =>
    have hnth : nth ⟨counter, last, step, .decreasing, body, span, env⟩ c 1 = c - step := by
      simp [nth]
    rw [hnth] at h ⊢
    simp only [Text.Fits] at hlast hc h hstep
    have hpast : ¬ last ≤ c - step := by omega
    exact decide_eq_false hpast

end Counting

/-! ### What is begun and comes to a value -/

namespace Machine

variable {σ : Type} {host : Host σ} {settings : Settings} {m : Machine σ}

/-- What `m` has begun comes to a value after `k` steps, and is not left before. -/
structure Comes (host : Host σ) (settings : Settings) (m : Machine σ) (k : Nat) (v : Value) :
    Prop where
  inside : m.Inside host settings k
  control : (m.run host settings k).control = .value v
  frames : (m.run host settings k).frames = m.frames

theorem run_succ_of_step (m : Machine σ) (k : Nat) :
    m.run host settings (k + 1) = (m.step host settings).run host settings k := by
  rw [run_eq_iterate, run_eq_iterate, Function.iterate_succ_apply]

/-- A value that is no signal is handed to the topmost frame. -/
theorem step_resume {v : Value} {f : Frame} {fs : List Frame} (hc : m.control = .value v)
    (hv : v.isSignal = false) (hf : m.frames = f :: fs) :
    m.step host settings = ({ m with frames := fs } : Machine σ).resume host settings v f := by
  rw [step, hc, hf]
  simp only [hv]
  rfl

/-- The frames that were there stay there, as long as what was begun is not left. -/
theorem Inside.length_frames_le (h : m.Inside host settings k) :
    m.frames.length ≤ (m.run host settings k).frames.length := by
  obtain ⟨above, hframes, -⟩ := (tallied_run h).frames
  rw [hframes, List.length_append]
  exact Nat.le_add_left _ _

theorem Inside.le {j : Nat} (h : m.Inside host settings k) (hj : j ≤ k) :
    m.Inside host settings j :=
  fun i hi => h i (Nat.lt_of_lt_of_le hi hj)

/-- What is begun after `a` steps belongs to what was begun first. -/
theorem Inside.add (ha : m.Inside host settings a)
    (hb : (m.run host settings a).Inside host settings b) : m.Inside host settings (a + b) := by
  intro j hj
  rcases Nat.lt_or_ge j a with hlt | hge
  · exact ha j hlt
  · obtain ⟨i, rfl⟩ := Nat.exists_eq_add_of_le hge
    rw [run_add]
    exact (hb i (by omega)).imp_right fun hlonger => Nat.lt_of_le_of_lt ha.length_frames_le hlonger

theorem Comes.after {v : Value} (ha : m.Inside host settings a)
    (hframes : (m.run host settings a).frames = m.frames)
    (hb : (m.run host settings a).Comes host settings b v) : m.Comes host settings (a + b) v where
  inside := ha.add hb.inside
  control := by rw [run_add, hb.control]
  frames := by rw [run_add, hb.frames, hframes]

end Machine

/-! ### One round -/

namespace Counting

variable {σ : Type} {host : Host σ} {settings : Settings} {loop : Counting} {m : Machine σ}

/-- The variable of the loop has the value `c`. -/
def Holds (loop : Counting) (c : Int) (st : Store) : Prop :=
  ∃ span, st.get? loop.env loop.counter.name = some (.int c span)

/-- With its next step, above the frames `fs`, the loop begins to run its body at
the value `c`: the statements of the body come next, in a new scope that binds
nothing yet, inside those of the loop, and the loop waits for them. -/
structure Begins (host : Host σ) (settings : Settings) (loop : Counting) (fs : List Frame)
    (c : Int) (m : Machine σ) : Prop where
  control : m.control = .count loop
  frames : m.frames = fs
  step : m.step host settings =
    { m with
      control := .statements loop.body.statements loop.body.span
        ⟨⟨m.store.scopes.size⟩, loop.env.chain⟩
      frames := .countBody loop c :: fs
      store := { m.store with scopes := m.store.scopes.push [] } }

/-- As long as the loop at whose head `m` stands is not left, every execution of
its body comes to a value that is no signal, and the variable has the value that it
had before. -/
def Orderly (host : Host σ) (settings : Settings) (loop : Counting) (m : Machine σ) : Prop :=
  ∀ i c, m.Inside host settings i → loop.Begins host settings m.frames c (m.run host settings i) →
    ∃ k v, (m.run host settings (i + 1)).Comes host settings k v ∧ v.isSignal = false ∧
      (m.run host settings (i + 1 + k)).store.get? loop.env loop.counter.name =
        (m.run host settings i).store.get? loop.env loop.counter.name

/-- The loop stands at its head, and its variable has the value `c`. -/
structure Stands (loop : Counting) (c : Int) (m : Machine σ) : Prop where
  control : m.control = .count loop
  value : loop.Holds c m.store

/-- What is orderly from the start is so from any later point of the loop. -/
theorem Orderly.after (h : loop.Orderly host settings m) (ha : m.Inside host settings a)
    (hframes : (m.run host settings a).frames = m.frames) :
    loop.Orderly host settings (m.run host settings a) := by
  intro i c hi hbegins
  rw [hframes, ← Machine.run_add] at hbegins
  obtain ⟨k, v, hcomes, hv, hkept⟩ := h (a + i) c (ha.add hi) hbegins
  refine ⟨k, v, ?_, hv, ?_⟩
  · rwa [← Machine.run_add, ← Nat.add_assoc]
  · rwa [← Machine.run_add, ← Machine.run_add, ← Nat.add_assoc, ← Nat.add_assoc]

/-- A body that is begun at two values is begun at one. -/
theorem Begins.unique {fs fs' : List Frame} {c' : Int} (h : loop.Begins host settings fs c m)
    (h' : loop.Begins host settings fs' c' m) : c = c' := by
  have hframes := congrArg Machine.frames (h.step.symm.trans h'.step)
  injection hframes with hbody
  injection hbody

namespace Stands

variable {c : Int}

/-- With its variable in range, the loop begins its body. -/
theorem begins (h : loop.Stands c m) (hin : loop.inRange c = true) :
    loop.Begins host settings m.frames c m := by
  obtain ⟨hcontrol, span, hvalue⟩ := h
  refine ⟨hcontrol, rfl, ?_⟩
  rw [Machine.step, hcontrol]
  simp only [Machine.count, hvalue, hin]
  rfl

/-- With its variable past the end, the loop is over. -/
theorem step_of_not_inRange (h : loop.Stands c m) (hout : loop.inRange c = false) :
    m.step host settings = m.give (.null loop.span) := by
  obtain ⟨hcontrol, span, hvalue⟩ := h
  rw [Machine.step, hcontrol]
  simp only [Machine.count, hvalue, hout]
  rfl

theorem inside_one (h : loop.Stands c m) : m.Inside host settings 1 := by
  intro j hj
  obtain rfl : j = 0 := by omega
  refine .inl ?_
  show m.control.isBusy = true
  rw [h.control]
  rfl

/-- One round.  In between there are more frames than at the head; after it the
loop stands at the next value, or it has ended because there is none. -/
theorem round (h : loop.Stands c m) (hin : loop.inRange c = true)
    (horderly : loop.Orderly host settings m) :
    ∃ k, m.Inside host settings k ∧ 0 < k ∧ (m.run host settings k).frames = m.frames ∧
      (∀ i, 0 < i → i < k → m.frames.length < (m.run host settings i).frames.length) ∧
      ((∃ next, loop.after? c = some next ∧ loop.Stands next (m.run host settings k)) ∨
        loop.after? c = none ∧ (m.run host settings k).control = .value (.null loop.span) ∧
          loop.Holds c (m.run host settings k).store) := by
  have hbegins : loop.Begins host settings m.frames c m := h.begins hin
  obtain ⟨k, v, hcomes, hv, hkept⟩ := horderly 0 c (by intro j hj; omega) hbegins
  rw [Nat.zero_add] at hcomes hkept
  have hbody : (m.run host settings 1).frames = .countBody loop c :: m.frames := by
    rw [Machine.run_succ_of_step]
    show (m.step host settings).frames = _
    rw [hbegins.step]
  have hlonger : ∀ i, 0 < i → i < k + 2 →
      m.frames.length < (m.run host settings i).frames.length := by
    intro i hpos hi
    obtain ⟨j, rfl⟩ := Nat.exists_eq_add_of_le hpos
    have hle := (hcomes.inside.le (show j ≤ k by omega)).length_frames_le
    rw [hbody, List.length_cons, ← Machine.run_add] at hle
    exact hle
  have hinside : m.Inside host settings (k + 2) := by
    intro j hj
    cases j with
    | zero => exact h.inside_one 0 Nat.zero_lt_one
    | succ j => exact .inr (hlonger (j + 1) (Nat.succ_pos j) hj)
  -- the value of the body is handed to the frame of the loop
  have hstep : m.run host settings (k + 2) =
      ({ m.run host settings (1 + k) with frames := m.frames } : Machine σ).countOn loop c := by
    rw [show k + 2 = 1 + k + 1 by omega, Machine.run_succ]
    have hcontrol := hcomes.control
    have hframes := hcomes.frames.trans hbody
    rw [← Machine.run_add] at hcontrol hframes
    exact Machine.step_resume hcontrol hv hframes
  obtain ⟨span, hvalue⟩ := h.value
  have hafter : (m.run host settings (1 + k)).store.get? loop.env loop.counter.name =
      some (.int c span) := hkept.trans hvalue
  refine ⟨k + 2, hinside, Nat.succ_pos _, ?_, hlonger, ?_⟩
  · rw [hstep, Machine.countOn]
    split <;> rfl
  · rw [hstep, Machine.countOn, Machine.counterAfter]
    simp only [hafter]
    cases hnext : loop.after? c with
    | none => exact .inr ⟨rfl, rfl, span, hafter⟩
    | some next =>
      refine .inl ⟨next, rfl, rfl, loop.counter.span, ?_⟩
      exact Store.get?_assign_self
        (.inr ((Store.isDefined_iff_get? _ _ _).2 ⟨_, hafter⟩)) _

end Stands

/-! ### All rounds -/

/-- From `m` on the loop runs its body `count` times and ends after `n` steps.  The
rounds are those of the values in the range, `t` gives their beginnings, and these
are all: whenever the body is begun, a round begins. -/
structure Passes (host : Host σ) (settings : Settings) (loop : Counting) (first : Int)
    (count : Nat) (t : Nat → Nat) (n : Nat) (m : Machine σ) : Prop where
  range : ∀ k, k < count ↔ loop.inRange (loop.nth first k) = true
  ordered : ∀ j k, j < k → k < count → t j < t k
  begins : ∀ k < count, t k < n ∧
    loop.Begins host settings m.frames (loop.nth first k) (m.run host settings (t k)) ∧
    loop.Holds (loop.nth first k) (m.run host settings (t k)).store
  only : ∀ i < n, ∀ c, loop.Begins host settings m.frames c (m.run host settings i) →
    ∃ k < count, i = t k ∧ c = loop.nth first k
  ends : m.Comes host settings n (.null loop.span)
  past : Text.Fits (loop.nth first count) →
    loop.Holds (loop.nth first count) (m.run host settings n).store
  stopped : ¬ Text.Fits (loop.nth first count) → 0 < count ∧
    loop.Holds (loop.nth first (count - 1)) (m.run host settings n).store

section Passes

variable {first : Int}

/-- A loop that stands past its last value has no round. -/
theorem passes_none (h : loop.Stands first m) (hfirst : Text.Fits first)
    (hrange : ∀ k, k < 0 ↔ loop.inRange (loop.nth first k) = true) :
    loop.Passes host settings first 0 id 1 m := by
  have hout : loop.inRange first = false := by
    rw [← loop.nth_zero first]
    exact Bool.eq_false_iff.2 fun hin => Nat.lt_irrefl 0 ((hrange 0).2 hin)
  have hrun : m.run host settings 1 = m.give (.null loop.span) := by
    rw [Machine.run_succ_of_step, h.step_of_not_inRange hout]
    rfl
  refine ⟨hrange, by intro j k _ hk; omega, by intro k hk; omega, ?_, ?_, ?_, ?_⟩
  · intro i hi c hbegins
    obtain rfl : i = 0 := by omega
    -- the body is begun with one more frame
    have hlength := congrArg (fun m => m.frames.length)
      ((h.step_of_not_inRange hout).symm.trans hbegins.step)
    exact absurd hlength (Nat.ne_of_lt (Nat.lt_succ_self _))
  · refine ⟨h.inside_one, ?_, ?_⟩ <;> rw [hrun] <;> rfl
  · intro _
    rw [nth_zero, hrun]
    exact h.value
  · intro hnot
    rw [nth_zero] at hnot
    exact absurd hfirst hnot

/-- In a round the body is begun once, at the start: later there are more frames. -/
theorem Stands.begins_once {i : Nat} (h : loop.Stands first m) (hin : loop.inRange first = true)
    (hlonger : ∀ i, 0 < i → i < k → m.frames.length < (m.run host settings i).frames.length)
    (hi : i < k) (hb : loop.Begins host settings m.frames c (m.run host settings i)) :
    i = 0 ∧ c = loop.nth first 0 := by
  rcases Nat.eq_zero_or_pos i with rfl | hpos
  · rw [nth_zero]
    exact ⟨rfl, Begins.unique hb (h.begins hin)⟩
  · exact absurd (congrArg List.length hb.frames) (Nat.ne_of_gt (hlonger i hpos hi))

/-- The loop ends after a round because there is no next value. -/
theorem passes_last (h : loop.Stands first m)
    (hrange : ∀ j, j < 1 ↔ loop.inRange (loop.nth first j) = true)
    (hnext : ¬ Text.Fits (loop.nth first 1)) (hinside : m.Inside host settings k) (hpos : 0 < k)
    (hframes : (m.run host settings k).frames = m.frames)
    (hlonger : ∀ i, 0 < i → i < k → m.frames.length < (m.run host settings i).frames.length)
    (hcontrol : (m.run host settings k).control = .value (.null loop.span))
    (hvalue : loop.Holds first (m.run host settings k).store) :
    loop.Passes host settings first 1 (fun _ => 0) k m := by
  have hin : loop.inRange first = true := by
    rw [← loop.nth_zero first]
    exact (hrange 0).1 Nat.zero_lt_one
  refine ⟨hrange, by intro i j hij hj; omega, ?_, ?_, ⟨hinside, hcontrol, hframes⟩,
    fun hfits => absurd hfits hnext, fun _ => ⟨Nat.zero_lt_one, ?_⟩⟩
  · intro j hj
    obtain rfl : j = 0 := by omega
    rw [nth_zero]
    exact ⟨hpos, h.begins hin, h.value⟩
  · intro i hi c hb
    obtain ⟨rfl, rfl⟩ := h.begins_once hin hlonger hi hb
    exact ⟨0, Nat.zero_lt_one, rfl, rfl⟩
  · rw [nth_zero]
    exact hvalue

/-- A round, and then the rounds of the loop from the next value on. -/
theorem Passes.cons {n : Nat} {t : Nat → Nat} (h : loop.Stands first m)
    (hin : loop.inRange first = true) (hinside : m.Inside host settings k) (hpos : 0 < k)
    (hframes : (m.run host settings k).frames = m.frames)
    (hlonger : ∀ i, 0 < i → i < k → m.frames.length < (m.run host settings i).frames.length)
    (hpasses : loop.Passes host settings (loop.nth first 1) count t n (m.run host settings k)) :
    loop.Passes host settings first (count + 1) (fun | 0 => 0 | j + 1 => k + t j) (k + n) m := by
  obtain ⟨hrange, hordered, hrounds, honly, hends, hpast, hstopped⟩ := hpasses
  rw [hframes] at hrounds honly
  refine ⟨?_, ?_, ?_, ?_, hends.after hinside hframes, ?_, ?_⟩
  · intro j
    cases j with
    | zero =>
      rw [nth_zero]
      exact iff_of_true (Nat.succ_pos _) hin
    | succ j =>
      rw [nth_succ, ← hrange j]
      exact Nat.succ_lt_succ_iff
  · intro i j hij hj
    cases j with
    | zero => exact absurd hij (Nat.not_lt_zero i)
    | succ j =>
      cases i with
      | zero => exact Nat.lt_of_lt_of_le hpos (Nat.le_add_right k _)
      | succ i =>
        exact Nat.add_lt_add_left
          (hordered i j (Nat.lt_of_succ_lt_succ hij) (Nat.lt_of_succ_lt_succ hj)) k
  · intro j hj
    cases j with
    | zero =>
      -- the first round begins at once
      rw [nth_zero]
      exact ⟨Nat.lt_of_lt_of_le hpos (Nat.le_add_right k n), h.begins hin, h.value⟩
    | succ j =>
      -- every other one is a round of the loop that is left
      obtain ⟨hlt, hb, hvalue⟩ := hrounds j (Nat.lt_of_succ_lt_succ hj)
      rw [nth_succ]
      simp only [Machine.run_add]
      exact ⟨Nat.add_lt_add_left hlt k, hb, hvalue⟩
  · intro i hi c hb
    rcases Nat.lt_or_ge i k with hlt | hge
    · -- while the first round runs, no body is begun at this level
      obtain ⟨rfl, rfl⟩ := h.begins_once hin hlonger hlt hb
      exact ⟨0, Nat.succ_pos _, rfl, rfl⟩
    · obtain ⟨i, rfl⟩ := Nat.exists_eq_add_of_le hge
      rw [Machine.run_add] at hb
      obtain ⟨j, hj, rfl, rfl⟩ := honly i (by omega) c hb
      exact ⟨j + 1, Nat.succ_lt_succ hj, rfl, (loop.nth_succ first j).symm⟩
  · rw [nth_succ, Machine.run_add]
    exact hpast
  · intro hnot
    rw [nth_succ] at hnot
    obtain ⟨hcount, hvalue⟩ := hstopped hnot
    refine ⟨Nat.succ_pos _, ?_⟩
    obtain ⟨j, rfl⟩ := Nat.exists_eq_add_of_lt hcount
    rw [Machine.run_add]
    simp only [Nat.zero_add, Nat.add_sub_cancel] at hvalue ⊢
    rw [nth_succ]
    exact hvalue

/-- A loop that stands at its head runs through the values that are left. -/
theorem Stands.passes (hstep : 0 < loop.step) (hlast : Text.Fits loop.last)
    (hfirst : Text.Fits first) (hrange : ∀ k, k < count ↔ loop.inRange (loop.nth first k) = true)
    (h : loop.Stands first m) (horderly : loop.Orderly host settings m) :
    ∃ t n, loop.Passes host settings first count t n m := by
  induction count generalizing first m with
  | zero => exact ⟨id, 1, passes_none h hfirst hrange⟩
  | succ count ih =>
    have hin : loop.inRange first = true := by
      rw [← loop.nth_zero first]
      exact (hrange 0).1 (Nat.succ_pos count)
    obtain ⟨k, hinside, hpos, hframes, hlonger, hnext⟩ := h.round hin horderly
    by_cases hfits : Text.Fits (loop.nth first 1)
    · rw [after?_eq_some hfits] at hnext
      obtain ⟨next, hnext, hstands⟩ := hnext.resolve_right (by rintro ⟨⟨⟩, _⟩)
      obtain rfl := Option.some.inj hnext
      have hrange' : ∀ j, j < count ↔ loop.inRange (loop.nth (loop.nth first 1) j) = true := by
        intro j
        rw [← nth_succ, ← hrange (j + 1)]
        exact Nat.succ_lt_succ_iff.symm
      obtain ⟨t, n, hpasses⟩ := ih hfits hrange' hstands (horderly.after hinside hframes)
      exact ⟨_, k + n, Passes.cons h hin hinside hpos hframes hlonger hpasses⟩
    · rw [after?_eq_none hfits] at hnext
      obtain ⟨-, hcontrol, hvalue⟩ := hnext.resolve_left (by rintro ⟨_, ⟨⟩, _⟩)
      -- the value that does not fit was the first one past the range
      have hcount : count = 0 := by
        have hout := inRange_of_not_fits hstep hlast hfirst hfits
        by_contra hne
        have hin' := (hrange 1).1 (by omega)
        rw [hout] at hin'
        cases hin'
      subst hcount
      exact ⟨_, k, passes_last h hrange hfits hinside hpos hframes hlonger hcontrol hvalue⟩

end Passes

end Counting

/-! ### Main result -/

namespace Machine

variable {σ : Type} {host : Host σ} {settings : Settings}

/-- The machine `m₀` has begun a counted loop, and in `m`, after `n` steps, the
last of the values `first`, `last` and `step` is there. -/
structure BoundsCome (host : Host σ) (settings : Settings) (m₀ m : Machine σ) (n : Nat)
    (counter : Ident) (stepExpr : Expr) (direction : Direction) (body : Block) (span : Span)
    (env : Env) (first last step : Value) : Prop where
  stmt : ∃ e₁ e₂, m₀.control = .stmt (.counted counter e₁ e₂ stepExpr direction body span) env
  inside : m₀.Inside host settings n
  run : m₀.run host settings n = m
  control : m.control = .value step
  plain : step.isSignal = false
  frames : m.frames = .countStep counter first last stepExpr.span direction body span env ::
    m₀.frames

namespace BoundsCome

variable {m₀ m : Machine σ} {n : Nat} {counter : Ident} {stepExpr : Expr} {direction : Direction}
  {body : Block} {span : Span} {env : Env} {first last step : Value}
  (h : BoundsCome host settings m₀ m n counter stepExpr direction body span env first last step)

include h

/-- The last value starts the loop. -/
theorem step_eq :
    m.step host settings = ({ m with frames := m₀.frames } : Machine σ).beginCount counter first
      last step stepExpr.span direction body span env :=
  step_resume h.control h.plain h.frames

theorem run_succ_eq : m₀.run host settings (n + 1) = m.step host settings := by
  rw [run_succ, h.run]

/-- Up to then the machine is inside the statement. -/
theorem inside_succ : m₀.Inside host settings (n + 1) := by
  intro j hj
  rcases Nat.lt_succ_iff_lt_or_eq.1 hj with hlt | rfl
  · exact h.inside j hlt
  · -- the loop waits for the value, so there is one more frame
    rw [h.run, h.frames]
    exact .inr (Nat.lt_succ_self _)

/-- Where the loop is refused, its fault is the value of the statement. -/
theorem comes_of_step {v : Value}
    (hstep : m.step host settings = { m with control := .value v, frames := m₀.frames }) :
    m₀.Comes host settings (n + 1) v := by
  refine ⟨h.inside_succ, ?_, ?_⟩ <;> rw [h.run_succ_eq, hstep]

end BoundsCome

/-- **Counted loops run exactly through their range.**  Let the bounds of a counted
loop have come to values, in a scope that exists.

* Let them be integers of a program, and the step positive.  If every execution of
  the body ends without a signal and leaves the variable alone, the statement comes
  to null.  The body is begun once for each value `first ± k * step` that is not past
  the last one, in this order, with the variable at this value, and at no other time;
  its statements run in a new scope each time.
  Afterwards the variable has the first value past the last one if it is an integer
  of a program, and otherwise the last value that the body has seen.
* If one of them is no integer, or the step is not positive, the statement comes to
  an error, and nothing in the store is changed. -/
theorem counted_loops_run_range (host : Host σ) (settings : Settings) (m₀ m : Machine σ) (n : Nat)
    (counter : Ident) (stepExpr : Expr) (direction : Direction) (body : Block) (span : Span)
    (env : Env) (first last step : Value)
    (h : BoundsCome host settings m₀ m n counter stepExpr direction body span env first last
      step) :
    (∀ a z d s₁ s₂ s₃, first = .int a s₁ → last = .int z s₂ → step = .int d s₃ →
      Text.Fits a → Text.Fits z → 0 < d → env.here.index < m.store.scopes.size →
      Counting.Orderly host settings ⟨counter, z, d, direction, body, span, env⟩
        (m₀.run host settings (n + 1)) →
      ∃ count t k, Counting.Passes host settings ⟨counter, z, d, direction, body, span, env⟩ a
          count t k (m₀.run host settings (n + 1)) ∧
        m₀.Comes host settings (n + 1 + k) (.null span)) ∧
    (¬ (first.kind = .int ∧ last.kind = .int ∧ step.kind = .int) →
      m₀.Comes host settings (n + 1)
          ((Fault.loopBounds first.kind last.kind step.kind).valueAt span) ∧
        (m₀.run host settings (n + 1)).store = m.store) ∧
    (∀ d s, first.kind = .int → last.kind = .int → step = .int d s → d ≤ 0 →
      m₀.Comes host settings (n + 1) (Fault.stepNotPositive.valueAt stepExpr.span) ∧
        (m₀.run host settings (n + 1)).store = m.store) := by
  have hstep := h.step_eq
  refine ⟨?_, ?_, ?_⟩
  · rintro a z d s₁ s₂ s₃ rfl rfl rfl ha hz hd henv horderly
    -- the step is positive, so the variable is set and the loop stands at its head
    have hhead : m₀.run host settings (n + 1) =
        { m with
          control := .count ⟨counter, z, d, direction, body, span, env⟩
          frames := m₀.frames
          store := m.store.assign env counter.name (.int a s₁) } := by
      rw [h.run_succ_eq, hstep]
      exact if_neg (not_le.2 hd)
    have hframes : (m₀.run host settings (n + 1)).frames = m₀.frames := by rw [hhead]
    have hstands : Counting.Stands ⟨counter, z, d, direction, body, span, env⟩ a
        (m₀.run host settings (n + 1)) := by
      rw [hhead]
      exact ⟨rfl, s₁, Store.get?_assign_self (.inl henv) _⟩
    obtain ⟨count, hrange⟩ := Counting.exists_rounds
      ⟨counter, z, d, direction, body, span, env⟩ hd a
    obtain ⟨t, k, hpasses⟩ := hstands.passes hd hz ha hrange horderly
    exact ⟨count, t, k, hpasses, hpasses.ends.after h.inside_succ hframes⟩
  · intro hkinds
    have hrefused : m.step host settings =
        { m with
          control := .value ((Fault.loopBounds first.kind last.kind step.kind).valueAt span)
          frames := m₀.frames } := by
      rw [hstep, beginCount.eq_def]
      split
      · -- three integers, which is excluded
        exact absurd ⟨rfl, rfl, rfl⟩ hkinds
      · rfl
    exact ⟨h.comes_of_step hrefused, by rw [h.run_succ_eq, hrefused]⟩
  · rintro d s hfirst hlast rfl hd
    have hrefused : m.step host settings =
        { m with
          control := .value (Fault.stepNotPositive.valueAt stepExpr.span)
          frames := m₀.frames } := by
      rw [hstep]
      cases first with
      | int a s₁ =>
        cases last with
        | int z s₂ => exact if_pos hd
        | _ => cases hlast
      | _ => cases hfirst
    exact ⟨h.comes_of_step hrefused, by rw [h.run_succ_eq, hrefused]⟩

/-- A body that assigns the variable `i` to `x`. -/
def copiesI : Block :=
  ⟨[.assign (.ident ⟨"x", default⟩) (.ident ⟨"i", default⟩) default], default⟩

/-- Begins a loop that counts `i` upwards. -/
def countsI (first last step : Expr) : Machine Console :=
  load (Session.new {}) ⟨[.counted ⟨"i", default⟩ first last step .increasing copiesI default],
    default⟩

/-- Begins the loop over the last two integers of a program. -/
def countsLast : Machine Console :=
  countsI (.int (Text.maxInt - 1) default) (.int Text.maxInt default) (.int 1 default)

/-- The loop over the last two integers, with its bounds. -/
def lastTwo : Counting :=
  ⟨⟨"i", default⟩, Text.maxInt, 1, .increasing, copiesI, default, default⟩

/-- The loop stands at its head at first and after eight steps, and both times the
body takes six steps. -/
theorem orderly_lastTwo :
    lastTwo.Orderly Console.host {} (countsLast.run Console.host {} 7) := by
  intro i c hi hbegins
  have hlt : i < 17 := by
    by_contra hge
    have hleft : ¬ (((countsLast.run Console.host {} 7).run Console.host {} 16).control.isBusy =
          true ∨ (countsLast.run Console.host {} 7).frames.length <
        ((countsLast.run Console.host {} 7).run Console.host {} 16).frames.length) := by
      decide +kernel
    exact hleft (hi 16 (by omega))
  have hheads : ∀ i < 17,
      ((countsLast.run Console.host {} 7).run Console.host {} i).control.isBusy = true →
      ((countsLast.run Console.host {} 7).run Console.host {} i).frames.length =
        (countsLast.run Console.host {} 7).frames.length → i = 0 ∨ i = 8 := by
    decide +kernel
  rcases hheads i hlt (by rw [hbegins.control]; rfl) (by rw [hbegins.frames]) with rfl | rfl
  · exact ⟨6, .null default, ⟨by decide +kernel, rfl, rfl⟩, rfl, rfl⟩
  · exact ⟨6, .null default, ⟨by decide +kernel, rfl, rfl⟩, rfl, rfl⟩

/-- The loop over the last two integers has two rounds, and the variable stays at
the last one.  With the step 0 or a text for a bound there is none. -/
theorem counted_loops_run_range_overflow :
    (lastTwo.Orderly Console.host {} (countsLast.run Console.host {} 7) ∧
      ∃ t k, lastTwo.Passes Console.host {} (Text.maxInt - 1) 2 t k
          (countsLast.run Console.host {} 7) ∧
        countsLast.Comes Console.host {} (7 + k) (.null default) ∧
        lastTwo.Holds Text.maxInt
          ((countsLast.run Console.host {} 7).run Console.host {} k).store) ∧
    (countsI (.int 1 default) (.int 2 default) (.int 0 default)).Comes Console.host {} 7
      (Fault.stepNotPositive.valueAt default) ∧
    (countsI (.int 1 default) (.str "2" default) (.int 1 default)).Comes Console.host {} 7
      ((Fault.loopBounds .int .str .int).valueAt default) := by
  refine ⟨⟨orderly_lastTwo, ?_⟩, ?_, ?_⟩
  · obtain ⟨count, t, k, hpasses, hcomes⟩ := (counted_loops_run_range Console.host {} countsLast _ 6
      ⟨"i", default⟩ (.int 1 default) .increasing copiesI default default _ _ _
      ⟨⟨_, _, rfl⟩, by decide +kernel, rfl, rfl, rfl, rfl⟩).1 _ _ _ _ _ _ rfl rfl rfl
      (by constructor <;> decide) (by constructor <;> decide) Int.one_pos Nat.one_pos
      orderly_lastTwo
    have hpasses : lastTwo.Passes Console.host {} (Text.maxInt - 1) count t k
        (countsLast.run Console.host {} 7) := hpasses
    have hcount : count = 2 := by
      have hone := (hpasses.range 1).2 (by decide)
      have htwo : ¬ 2 < count := fun hlt => absurd ((hpasses.range 2).1 hlt) (by decide)
      omega
    subst hcount
    have hnot : ¬ Text.Fits (lastTwo.nth (Text.maxInt - 1) 2) := fun h => absurd h.2 (by decide)
    exact ⟨t, k, hpasses, hcomes, (hpasses.stopped hnot).2⟩
  · have hbounds : BoundsCome Console.host {}
        (countsI (.int 1 default) (.int 2 default) (.int 0 default)) _ 6
        ⟨"i", default⟩ (.int 0 default) .increasing copiesI default default (.int 1 default)
        (.int 2 default) (.int 0 default) :=
      ⟨⟨_, _, rfl⟩, by decide +kernel, rfl, rfl, rfl, rfl⟩
    exact ((counted_loops_run_range _ _ _ _ _ _ _ _ _ _ _ _ _ _ hbounds).2.2 0 default rfl rfl
      rfl (Int.le_refl 0)).1
  · have hbounds : BoundsCome Console.host {}
        (countsI (.int 1 default) (.str "2" default) (.int 1 default)) _ 6
        ⟨"i", default⟩ (.int 1 default) .increasing copiesI default default (.int 1 default)
        (.str "2" default) (.int 1 default) :=
      ⟨⟨_, _, rfl⟩, by decide +kernel, rfl, rfl, rfl, rfl⟩
    exact ((counted_loops_run_range _ _ _ _ _ _ _ _ _ _ _ _ _ _ hbounds).2.1 (by decide)).1

end Machine

end Dncl
