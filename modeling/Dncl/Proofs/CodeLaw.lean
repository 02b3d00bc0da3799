/-
Dncl/Proofs/CodeLaw.lean

Laws about the code that a machine runs.

A law says which parts of programs a machine may have, and which values it may
hand on.  It asks for two things: what a part is made of keeps to the law if
the part does, and so does an error that is told of such a part.  Then every
step keeps to the law, since it only takes apart what the machine has.

Design.  The cases of a step are those of `Move`.  Values that a step does not
make, but finds, come from the store, from frames and from functions that give
them back.  That these may be handed on is a premise (`Trusts`).  With the
console it is known, because they are no errors (`Sound`).
-/
import Dncl.Proofs.SignalFree

namespace Dncl

variable {st : Store} {v : Value}

/-- What is looked up is a stored function, or the one that stands for none. -/
theorem Store.closure_mem_or (st : Store) (ref : ClosureRef) :
    st.closure ref ∈ st.closures ∨ st.closure ref = default := by
  rw [Store.closure, Array.getD_eq_getD_getElem?]
  by_cases h : ref.index < st.closures.size
  · rw [Array.getElem?_eq_getElem h]
    exact .inl (Array.getElem_mem h)
  · rw [Array.getElem?_eq_none (Nat.le_of_not_lt h)]
    exact .inr rfl

theorem Store.exists_closure {c : Closure} (h : c ∈ st.closures) : ∃ ref, st.closure ref = c := by
  obtain ⟨i, hi, rfl⟩ := Array.getElem_of_mem h
  refine ⟨⟨i⟩, ?_⟩
  rw [Store.closure, Array.getD_eq_getD_getElem?, Array.getElem?_eq_getElem hi]
  rfl

/-- A law about the code and the errors of a machine. -/
structure CodeLaw where
  /-- The parts that a machine may have. -/
  holds : Part → Prop
  /-- The values that it may hand on. -/
  admits : Value → Prop
  holds_parts : ∀ {p q : Part}, holds p → q ∈ p.parts → holds q
  admits_data : ∀ {v : Value}, v.isError = false → admits v
  admits_fault : ∀ {f : Fault} {span : Span}, holds (.place span) → f.isRefusal = false →
    admits (f.valueAt span)
  admits_refusal : ∀ {target : Expr}, holds (.target target) → target.isAssignable = false →
    admits (Fault.notAssignable.valueAt target.span)

namespace CodeLaw

variable {σ : Type} {host : Host σ} {settings : Settings} {law : CodeLaw}

/-- All functions of a store keep to the law. -/
def HoldsIn (law : CodeLaw) (st : Store) : Prop :=
  ∀ c ∈ st.closures, law.holds (.node (.function c.literal))

/-- A machine keeps to the law. -/
structure Obeyed (law : CodeLaw) (m : Machine σ) : Prop where
  control : ∀ p ∈ m.control.parts, law.holds p
  frames : ∀ f ∈ m.frames, ∀ p ∈ f.parts, law.holds p
  closures : law.HoldsIn m.store
  given : ∀ v, m.control = .value v → law.admits v

/-- The answers of a host keep to the law. -/
structure Followed (law : CodeLaw) (host : Host σ) : Prop where
  builtin : ∀ function arguments span st world, law.holds (.place span) → law.HoldsIn st →
    law.HoldsIn (host.builtin function arguments span st world).2.1 ∧
      law.admits (host.builtin function arguments span st world).1
  command : ∀ c span st world, law.holds (.place span) → law.HoldsIn st →
    law.HoldsIn (host.command c span st world).2.1 ∧
      law.admits (host.command c span st world).1

/-- The values that a machine finds may be handed on. -/
structure Trusts (law : CodeLaw) (m : Machine σ) : Prop where
  held : ∀ v ∈ m.inHand, law.admits v
  stored : ∀ v, m.store.Stored v → law.admits v
  unwrapped : ∀ v, m.control = .value v → law.admits v → law.admits v.unwrap

/-! ### Steps -/

theorem admits_free (h : v.isSignal = false) : law.admits v := by
  rw [Value.isSignal, Bool.or_eq_false_iff] at h
  exact law.admits_data h.1

/-- A computed value is free, or carries the place where it was computed. -/
theorem admits_computed {span : Span} (hspan : law.holds (.place span))
    (hv : Machine.Computed span v) : law.admits v := by
  cases hv with
  | plain hv _ => exact admits_free (Value.isSignal_of_isPlain hv)
  | fault hf => exact law.admits_fault hspan hf

/-- A value that a step obtains comes from the code, the hand or the store. -/
theorem admits_obtained {code : Part → Prop} (hcode : ∀ p, code p → law.holds p) {hand : List Value}
    (hhand : ∀ v ∈ hand, law.admits v) (hst : ∀ v, st.Stored v → law.admits v)
    (hv : Machine.Obtained code st hand v) : law.admits v := by
  cases hv with
  | plain hv => exact admits_free (Value.isSignal_of_isPlain hv)
  | computed hspan hv => exact admits_computed (hcode _ hspan) hv
  | refused htarget hrefused => exact law.admits_refusal (hcode _ htarget) hrefused
  | held hv => exact hhand v hv
  | bound env name hv => exact hst v (Store.stored_of_get? hv)
  | element ref hv => exact hst v (.inr ⟨ref, hv⟩)
  | returned span hv => exact law.admits_data rfl

namespace Obeyed

variable {m : Machine σ} (h : law.Obeyed m)

include h

/-- What a machine reaches keeps to the law. -/
theorem of_reaches {p : Part} (hp : m.Reaches p) : law.holds p := by
  induction hp with
  | control hp => exact h.control _ hp
  | frame hf hp => exact h.frames _ hf _ hp
  | part _ hq ih => exact law.holds_parts ih hq

theorem base : law.Obeyed m.base := by
  rw [Machine.base]
  split
  · exact h
  · exact ⟨h.control, fun f hf => h.frames f (List.mem_of_mem_tail hf), h.closures, h.given⟩

/-- Another control, and another store. -/
theorem change {c : Control} {depth : Nat} {world : σ} (hc : ∀ p ∈ c.parts, law.holds p)
    (hv : ∀ v, c = .value v → law.admits v) (hst : law.HoldsIn st) :
    law.Obeyed (⟨c, m.frames, st, depth, world⟩ : Machine σ) :=
  ⟨hc, h.frames, hst, hv⟩

theorem give {depth : Nat} {world : σ} (hv : law.admits v) (hst : law.HoldsIn st) :
    law.Obeyed (⟨.value v, m.frames, st, depth, world⟩ : Machine σ) := by
  refine h.change nofun ?_ hst
  rintro w ⟨⟩
  exact hv

theorem pushed {f : Frame} (hf : ∀ p ∈ f.parts, law.holds p) :
    law.Obeyed { m with frames := f :: m.frames } := by
  refine ⟨h.control, fun g hg => ?_, h.closures, h.given⟩
  rcases List.mem_cons.1 hg with rfl | hg
  · exact hf
  · exact h.frames g hg

end Obeyed

theorem HoldsIn.of_closures {st' : Store} (h : law.HoldsIn st) (heq : st'.closures = st.closures) :
    law.HoldsIn st' := by
  intro c hc
  exact h c (heq ▸ hc)

/-- A function that is made keeps to the law if its text does. -/
theorem HoldsIn.newClosure {c : Closure} (h : law.HoldsIn st)
    (hc : law.holds (.node (.function c.literal))) : law.HoldsIn (st.newClosure c).2 := by
  intro d hd
  rcases Array.mem_push.1 hd with hd | rfl
  · exact h d hd
  · exact hc

/-- What is called is a function of the store; where there is none, it has no
body. -/
theorem HoldsIn.body (h : law.HoldsIn st) (ref : ClosureRef) :
    ∀ p ∈ Part.parts (.node (.block (st.closure ref).literal.body)), law.holds p := by
  intro p hp
  rcases Store.closure_mem_or st ref with hmem | hnone
  · exact law.holds_parts (law.holds_parts (h _ hmem) (by simp)) hp
  · rw [hnone] at hp
    exact absurd hp List.not_mem_nil

/-- Whatever a step makes of a base that keeps to the law keeps to it too. -/
theorem Obeyed.move (hhost : law.Followed host) {hand : List Value} {code : Part → Prop}
    {left : Bool} {m m' : Machine σ} (h : law.Obeyed m) (hcode : ∀ p, code p → law.holds p)
    (hhand : ∀ v ∈ hand, law.admits v) (hst : ∀ v, m.store.Stored v → law.admits v)
    (hunwrap : ∀ v, m.control = .value v → law.admits v → law.admits v.unwrap)
    (hmove : Machine.Move host settings hand code left m m') : law.Obeyed m' := by
  have hnull : ∀ span, law.admits (.null span) := fun _ => law.admits_data rfl
  cases hmove with
  | give hv => exact h.give (admits_obtained hcode hhand hst hv) h.closures
  | turn hc hparts =>
    refine h.change (fun p hp => hcode p (hparts p hp)) ?_ h.closures
    rintro v rfl
    cases hc
  | push _ _ hc hparts =>
    refine (h.pushed fun p hp => hcode p (hparts p (List.mem_append_left _ hp))).change
      (fun p hp => hcode p (hparts p (List.mem_append_right _ hp))) ?_ h.closures
    rintro v rfl
    cases hc
  | pushBlock b env _ _ hparts =>
    refine (h.pushed fun p hp => hcode p (hparts p (List.mem_cons_of_mem _ hp))).change
      (fun p hp => ?_) (by rintro _ ⟨⟩) h.closures
    exact law.holds_parts (hcode _ (hparts _ List.mem_cons_self)) hp
  | assign env name _ hc hparts =>
    rw [Store.assign_eq_owner?]
    refine h.change (fun p hp => hcode p (hparts p hp)) ?_ h.closures
    rintro v rfl
    rcases hc with hc | ⟨span, hc⟩
    · cases hc
    · cases hc
      exact hnull _
  | setSlot ref slot span => exact h.give (hnull _) h.closures
  | array span => exact h.give (law.admits_data rfl) h.closures
  | function closure span hliteral =>
    exact h.give (law.admits_data rfl) (h.closures.newClosure (hcode _ hliteral))
  | define closure env name span hliteral =>
    exact h.give (hnull _) (h.closures.newClosure (hcode _ hliteral))
  | call ref place span _ _ harity hdepth =>
    rw [Machine.apply_eq harity hdepth]
    -- the body comes from a stored function, and the frame has no parts
    exact (h.pushed (f := .call span) (by rintro _ ⟨⟩)).change (h.closures.body ref)
      (by rintro _ ⟨⟩)
      (h.closures.of_closures (ValueLaw.kept_bindParams _ _ _ _).2)
  | builtin function span _ hspan =>
    obtain ⟨hclosures, hvalue⟩ :=
      hhost.builtin function _ span m.store m.world (hcode _ hspan) h.closures
    rw [Machine.applyBuiltin]
    simp only
    split
    · exact h.change (by rintro _ ⟨⟩) (by rintro _ ⟨⟩) hclosures
    · exact h.give hvalue hclosures
  | command c span hspan =>
    obtain ⟨hclosures, hvalue⟩ := hhost.command c span m.store m.world (hcode _ hspan) h.closures
    exact h.give hvalue hclosures
  | pass _ _ => exact h
  | leave span _ => exact h.give (hnull _) h.closures
  | unwrap _ hc _ => exact h.give (hunwrap _ hc (h.given _ hc)) h.closures
  | abort _ => exact h.change h.control h.given h.closures

/-- **Every step keeps to the law.** -/
theorem Obeyed.step (hhost : law.Followed host) {m : Machine σ} (h : law.Obeyed m)
    (htrusts : law.Trusts m) : law.Obeyed (m.step host settings) := by
  cases hhalt : m.isHalted with
  | true =>
    rw [Machine.step_of_isHalted hhalt]
    exact h
  | false =>
    refine h.base.move hhost (fun p => h.of_reaches) htrusts.held ?_ ?_
      (Machine.step_move m hhalt)
    · rw [Machine.store_base]
      exact htrusts.stored
    · rw [Machine.control_base]
      exact htrusts.unwrapped

/-- **So does every run**, if the values that it finds may be handed on. -/
theorem Obeyed.run (hhost : law.Followed host) {m : Machine σ} (h : law.Obeyed m)
    (htrusts : ∀ n, law.Trusts (m.run host settings n)) (n : Nat) :
    law.Obeyed (m.run host settings n) := by
  induction n with
  | zero => exact h
  | succ n ih =>
    rw [Machine.run_succ]
    exact ih.step hhost (htrusts n)

/-- A program that keeps to the law may be loaded. -/
theorem HoldsIn.load {s : Session σ} (hs : law.HoldsIn s.store) {p : Program}
    (hp : ∀ s ∈ p.statements, law.holds (.node (.stmt s))) : law.Obeyed (Machine.load s p) := by
  obtain ⟨statements, span⟩ := p
  cases statements with
  | nil =>
    refine ⟨nofun, nofun, hs, ?_⟩
    rintro v ⟨⟩
    exact law.admits_data rfl
  | cons first rest =>
    refine ⟨?_, ?_, hs, nofun⟩
    · rintro p (- | ⟨_, ⟨⟩⟩)
      exact hp first List.mem_cons_self
    · rintro f (- | ⟨_, ⟨⟩⟩) p hmem
      obtain ⟨n, hn, rfl⟩ := List.mem_map.1 hmem
      obtain ⟨s, hs, rfl⟩ := List.mem_map.1 hn
      exact hp s (List.mem_cons_of_mem _ hs)

/-! ### The console -/

/-- The console keeps to every law. -/
theorem followed_console (law : CodeLaw) : law.Followed Console.host where
  builtin function arguments span st c hspan hst := by
    refine ⟨hst, ?_⟩
    rcases Console.builtin_computed function arguments span st c with h | ⟨-, v, -, h⟩
    · exact admits_computed hspan h
    · exact Eq.mpr (congrArg _ h) (law.admits_data rfl)
  command c span _ world hspan hst :=
    ⟨hst, admits_computed hspan (Console.command_computed c span world)⟩

/-- What a machine finds in a run with the console is no error. -/
theorem trusts_of_sound {m : Machine Console} (hs : Machine.Sound m) : law.Trusts m where
  held v hv := admits_free (hs.obeyed.inHand v hv)
  stored v hv := admits_free (hs.obeyed.stored v hv)
  unwrapped v hc hv := by
    cases v with
    | returned w span =>
      rcases hs.obeyed.given _ hc with h | h | ⟨_, _, ⟨⟩, hw⟩
      · cases h
      · cases h
      · exact admits_free hw
    | _ => exact hv

/-- **With the console every run keeps to the law**, if no stored value is a
signal. -/
theorem Obeyed.run_console {m : Machine Console} (h : law.Obeyed m) (hs : Machine.Sound m)
    (n : Nat) : law.Obeyed (m.run Console.host settings n) :=
  h.run law.followed_console (fun n => trusts_of_sound (Machine.run_sound hs n)) n

/-- What a machine has come to may be handed on. -/
theorem Obeyed.outcome {m : Machine Console} (h : law.Obeyed m) (hs : Machine.Sound m)
    (hv : m.outcome? = some (.ok v)) : law.admits v := by
  rw [Machine.outcome?.eq_def] at hv
  split at hv
  · rename_i w _ hc
    cases hv
    exact (trusts_of_sound hs).unwrapped w hc (h.given w hc)
  · cases hv
  · cases hv

end CodeLaw

end Dncl
