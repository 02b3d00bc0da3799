/-
Dncl/Proofs/Stored.lean

The values in a store, and laws that all values of a run obey.

A value is *stored* if a scope binds a name to it or an array has it as an
element.  Each operation on stores brings in only the values it is given
(`stored_bind`, `stored_newArray`, …).

A *law* (`ValueLaw`) asks something of the values that are stored or kept in
frames, its data, and possibly less of a value that is on its way.  It holds
in every state of a run as soon as it holds at the start and the host keeps
to it:

    run_obeys :  law.Obeyed m → law.Obeyed (m.run host settings n)

The law itself has only to be stable under what the evaluator does to single
values: handing them on, wrapping one that is given back, unwrapping it at a
call, and making arrays.
-/
import Dncl.Proofs.Run

namespace Dncl

variable {v w : Value} {st : Store} {arguments hand values : List Value} {depth n slot : Nat}
    {name : String} {env : Env}

/-! ### Scopes -/

namespace Scope

theorem mem_of_get? {s : Scope} (h : s.get? name = some v) : (name, v) ∈ s := by
  induction s with
  | nil => cases h
  | cons b s ih =>
    obtain ⟨n, w⟩ := b
    rw [get?] at h
    split at h
    · rename_i hn
      cases h
      rw [hn]
      exact List.mem_cons_self
    · exact List.mem_cons_of_mem _ (ih h)

/-- A scope that was changed binds what it did, or the new value. -/
theorem mem_set {n : String} {s : Scope} (h : (n, w) ∈ s.set name v) : (n, w) ∈ s ∨ w = v := by
  induction s with
  | nil =>
    obtain ⟨-, rfl⟩ := Prod.mk.inj (List.mem_singleton.1 h)
    exact .inr rfl
  | cons b s ih =>
    obtain ⟨n', w'⟩ := b
    rw [set] at h
    split at h
    · rcases List.mem_cons.1 h with heq | hs
      · exact .inr (Prod.mk.inj heq).2
      · exact .inl (List.mem_cons_of_mem _ hs)
    · rcases List.mem_cons.1 h with heq | hs
      · rw [heq]
        exact .inl List.mem_cons_self
      · rcases ih hs with h | h
        · exact .inl (List.mem_cons_of_mem _ h)
        · exact .inr h

end Scope

namespace Store

/-! ### Stored values -/

/-- A scope binds a name to the value, or an array has it as an element. -/
def Stored (st : Store) (v : Value) : Prop :=
  (∃ ref name, (name, v) ∈ st.scope ref) ∨ ∃ ref, v ∈ (st.elements ref).toList

theorem stored_of_get? (h : st.get? env name = some v) : st.Stored v := by
  rw [get?_eq_owner?] at h
  obtain ⟨ref, -, hv⟩ := Option.bind_eq_some_iff.1 h
  exact .inl ⟨ref, name, Scope.mem_of_get? hv⟩

theorem scope_bind (st : Store) (ref r : ScopeRef) (name : String) (v : Value) :
    (st.bind ref name v).scope r = st.scope r ∨
      (st.bind ref name v).scope r = (st.scope r).set name v := by
  rw [scope, scope, bind, Array.getD_eq_getD_getElem?, Array.getD_eq_getD_getElem?,
    Array.getElem?_modify]
  split
  · cases h : st.scopes[r.index]? with
    | none => exact .inl rfl
    | some s => exact .inr rfl
  · exact .inl rfl

/-- A binding stores nothing but its value. -/
theorem stored_bind {ref : ScopeRef} (h : (st.bind ref name v).Stored w) : st.Stored w ∨ w = v := by
  rcases h with ⟨r, n, hw⟩ | ⟨r, hw⟩
  · rcases st.scope_bind ref r name v with hr | hr
    · rw [hr] at hw
      exact .inl (.inl ⟨r, n, hw⟩)
    · rw [hr] at hw
      rcases Scope.mem_set hw with hw | hw
      · exact .inl (.inl ⟨r, n, hw⟩)
      · exact .inr hw
  · exact .inl (.inr ⟨r, hw⟩)

/-- A scope that was just made binds nothing. -/
theorem scope_push (st : Store) (ref : ScopeRef) :
    ({ st with scopes := st.scopes.push [] } : Store).scope ref = st.scope ref := by
  rw [scope, scope, Array.getD_eq_getD_getElem?, Array.getD_eq_getD_getElem?, Array.getElem?_push]
  split
  · rename_i h
    rw [h, Array.getElem?_size]
    rfl
  · rfl

theorem stored_enter : (st.enter env).2.Stored v ↔ st.Stored v := by
  simp only [Stored, enter, scope_push]
  rfl

theorem stored_newEnv : st.newEnv.2.Stored v ↔ st.Stored v := by
  simp only [Stored, newEnv, scope_push]
  rfl

theorem not_stored_empty (v : Value) : ¬ Store.empty.Stored v := by
  rintro (⟨ref, name, h⟩ | ⟨ref, h⟩)
  · simp [scope, empty] at h
  · simp [elements, empty] at h

theorem elements_newArray (st : Store) (values : List Value) (ref : ArrayRef) :
    (st.newArray values).2.elements ref =
      if ref.index = st.arrays.size then values.toArray else st.elements ref := by
  rw [elements, elements, newArray, Array.getD_eq_getD_getElem?, Array.getD_eq_getD_getElem?,
    Array.getElem?_push]
  split <;> rfl

theorem stored_newArray (h : (st.newArray values).2.Stored v) : st.Stored v ∨ v ∈ values := by
  rcases h with hscope | ⟨ref, hv⟩
  · exact .inl (.inl hscope)
  · rw [elements_newArray] at hv
    split at hv
    · exact .inr hv
    · exact .inl (.inr ⟨ref, hv⟩)

/-- One slot of one array is changed. -/
theorem elements_setSlot (st : Store) (ref r : ArrayRef) (slot : Nat) (v : Value) :
    (st.setSlot ref slot v).elements r =
      if ref = r then (st.elements r).setIfInBounds slot v else st.elements r := by
  rw [elements, elements, setSlot, Array.getD_eq_getD_getElem?, Array.getD_eq_getD_getElem?,
    Array.getElem?_modify]
  by_cases h : ref = r
  · subst h
    rw [if_pos rfl, if_pos rfl]
    cases st.arrays[ref.index]? with
    | none => simp
    | some a => rfl
  · have hindex : ref.index ≠ r.index := fun heq => h (by cases ref; cases r; simpa using heq)
    rw [if_neg hindex, if_neg h]

theorem stored_setSlot {ref : ArrayRef} (h : (st.setSlot ref slot v).Stored w) :
    st.Stored w ∨ w = v := by
  rcases h with hscope | ⟨r, hw⟩
  · exact .inl (.inl hscope)
  · rw [elements_setSlot] at hw
    split at hw
    · rw [Array.toList_setIfInBounds] at hw
      rcases List.mem_or_eq_of_mem_set hw with hw | hw
      · exact .inl (.inr ⟨r, hw⟩)
      · exact .inr hw
    · exact .inl (.inr ⟨r, hw⟩)

theorem closure_newClosure (st : Store) (c : Closure) (ref : ClosureRef) :
    (st.newClosure c).2.closure ref =
      if ref.index = st.closures.size then c else st.closure ref := by
  rw [closure, closure, newClosure, Array.getD_eq_getD_getElem?, Array.getD_eq_getD_getElem?,
    Array.getElem?_push]
  split <;> rfl

end Store

/-- Nothing is stored where nothing has run. -/
theorem Session.not_stored_new {σ : Type} (world : σ) (v : Value) :
    ¬ (Session.new world).store.Stored v :=
  fun h => Store.not_stored_empty v (Store.stored_newEnv.1 h)

theorem Machine.stored_bindParams {params : List Ident}
    (h : (Machine.bindParams env params arguments st).Stored v) : st.Stored v ∨ v ∈ arguments := by
  induction params generalizing arguments st with
  | nil => exact .inl h
  | cons p params ih =>
    cases arguments with
    | nil => exact .inl h
    | cons a arguments =>
      rcases ih h with h | h
      · rcases Store.stored_bind h with h | rfl
        · exact .inl h
        · exact .inr List.mem_cons_self
      · exact .inr (List.mem_cons_of_mem _ h)

/-! ### Laws about values -/

/-- A law about values: what is asked of the data of a machine with `n` arrays,
and of a value that is handed on in it. -/
structure ValueLaw where
  data : Nat → Value → Prop
  carried : Nat → Value → Prop
  data_plain : ∀ {n v}, v.isPlain = true → data n v
  data_function : ∀ n ref span, data n (.function ref span)
  data_array : ∀ {n} {ref : ArrayRef} span, ref.index < n → data n (.array ref span)
  data_of_carried : ∀ {n v}, carried n v → v.isSignal = false → data n v
  carried_of_data : ∀ {n v}, data n v → carried n v
  carried_fault : ∀ n (f : Fault) span, carried n (f.valueAt span)
  carried_returned : ∀ {n v} span, data n v → carried n (.returned v span)
  carried_unwrap : ∀ {n v}, carried n v → v.isSignal = true → carried n v.unwrap
  data_mono : ∀ {n n' v}, n ≤ n' → data n v → data n' v
  carried_mono : ∀ {n n' v}, n ≤ n' → carried n v → carried n' v

namespace ValueLaw

variable {σ : Type} {host : Host σ} {settings : Settings} (law : ValueLaw)

/-- All stored values are data. -/
def ObeyedIn (st : Store) : Prop :=
  ∀ v, st.Stored v → law.data st.arrays.size v

/-- The law holds of everything in a machine. -/
structure Obeyed (m : Machine σ) : Prop where
  stored : law.ObeyedIn m.store
  kept : ∀ f ∈ m.frames, ∀ v ∈ f.values, law.data m.store.arrays.size v
  given : ∀ v, m.control = .value v → law.carried m.store.arrays.size v

/-- The law holds of an answer of the host to a machine with the store `st`. -/
structure Answer (st : Store) (answer : Value × Store × σ) : Prop where
  stored : law.ObeyedIn answer.2.1
  given : law.carried answer.2.1.arrays.size answer.1
  grown : st.arrays.size ≤ answer.2.1.arrays.size

/-- The host keeps to the law. -/
structure Followed (host : Host σ) : Prop where
  builtin : ∀ function arguments span st world, law.ObeyedIn st →
    (∀ v ∈ arguments, law.data st.arrays.size v) →
    law.Answer st (host.builtin function arguments span st world)
  command : ∀ c span st world, law.ObeyedIn st → law.Answer st (host.command c span st world)

variable {law}

/-! ### Operations on stores keep to a law -/

/-- Only new values have to be looked at. -/
theorem ObeyedIn.mono {st' : Store} (h : law.ObeyedIn st) (hsize : st.arrays.size ≤ st'.arrays.size)
    (hstored : ∀ v, st'.Stored v → st.Stored v ∨ law.data st'.arrays.size v) :
    law.ObeyedIn st' := by
  intro v hv
  rcases hstored v hv with hv | hv
  · exact law.data_mono hsize (h v hv)
  · exact hv

theorem ObeyedIn.bind {ref : ScopeRef} (h : law.ObeyedIn st) (hv : law.data st.arrays.size v) :
    law.ObeyedIn (st.bind ref name v) := by
  refine h.mono (Nat.le_refl _) ?_
  intro w hw
  rcases Store.stored_bind hw with hw | rfl
  · exact .inl hw
  · exact .inr hv

theorem ObeyedIn.enter (h : law.ObeyedIn st) (env : Env) : law.ObeyedIn (st.enter env).2 :=
  h.mono (Nat.le_refl _) fun _ hv => .inl (Store.stored_enter.1 hv)

theorem ObeyedIn.newEnv (h : law.ObeyedIn st) : law.ObeyedIn st.newEnv.2 :=
  h.mono (Nat.le_refl _) fun _ hv => .inl (Store.stored_newEnv.1 hv)

theorem size_newArray (st : Store) (values : List Value) :
    (st.newArray values).2.arrays.size = st.arrays.size + 1 :=
  Array.size_push _

theorem ObeyedIn.newArray (h : law.ObeyedIn st) (hv : ∀ v ∈ values, law.data st.arrays.size v) :
    law.ObeyedIn (st.newArray values).2 := by
  have hsize : st.arrays.size ≤ (st.newArray values).2.arrays.size := by
    rw [size_newArray]
    exact Nat.le_succ _
  refine h.mono hsize ?_
  intro w hw
  rcases Store.stored_newArray hw with hw | hw
  · exact .inl hw
  · exact .inr (law.data_mono hsize (hv w hw))

theorem size_setSlot (st : Store) (ref : ArrayRef) (slot : Nat) (v : Value) :
    (st.setSlot ref slot v).arrays.size = st.arrays.size :=
  Array.size_modify

theorem ObeyedIn.setSlot {ref : ArrayRef} (h : law.ObeyedIn st) (hv : law.data st.arrays.size v) :
    law.ObeyedIn (st.setSlot ref slot v) := by
  have hsize := size_setSlot st ref slot v
  refine h.mono (Nat.le_of_eq hsize.symm) ?_
  intro w hw
  rcases Store.stored_setSlot hw with hw | rfl
  · exact .inl hw
  · rw [hsize]
    exact .inr hv

/-- Binding parameters changes scopes, and nothing else. -/
theorem kept_bindParams (env : Env) (params : List Ident) (arguments : List Value) (st : Store) :
    (Machine.bindParams env params arguments st).arrays = st.arrays ∧
      (Machine.bindParams env params arguments st).closures = st.closures := by
  induction params generalizing arguments st with
  | nil => exact ⟨rfl, rfl⟩
  | cons p params ih =>
    cases arguments with
    | nil => exact ⟨rfl, rfl⟩
    | cons a arguments => exact ih _ _

theorem ObeyedIn.bindParams {params : List Ident} (h : law.ObeyedIn st)
    (hv : ∀ v ∈ arguments, law.data st.arrays.size v) :
    law.ObeyedIn (Machine.bindParams env params arguments st) := by
  have harrays := (kept_bindParams env params arguments st).1
  refine h.mono (Nat.le_of_eq (congrArg Array.size harrays.symm)) ?_
  intro w hw
  rcases Machine.stored_bindParams hw with hw | hw
  · exact .inl hw
  · rw [harrays]
    exact .inr (hv w hw)

/-! ### Moves keep to a law -/

theorem data_of_keepable (hhand : ∀ v ∈ hand, law.data n v) (hv : Machine.Keepable hand v) :
    law.data n v := by
  rcases hv with hv | hv
  · exact hhand v hv
  · exact law.data_plain hv

theorem carried_of_computed {span : Span} (hv : Machine.Computed span v) : law.carried n v := by
  cases hv with
  | plain hv _ => exact law.carried_of_data (law.data_plain hv)
  | fault _ => exact law.carried_fault _ _ _

/-- What a step obtains keeps to the law. -/
theorem carried_of_obtained {code : Part → Prop} (hst : law.ObeyedIn st)
    (hhand : ∀ v ∈ hand, law.data st.arrays.size v) (hv : Machine.Obtained code st hand v) :
    law.carried st.arrays.size v := by
  cases hv with
  | plain hv => exact law.carried_of_data (law.data_plain hv)
  | computed _ hv => exact carried_of_computed hv
  | refused _ _ => exact law.carried_fault _ _ _
  | held hv => exact law.carried_of_data (hhand v hv)
  | bound env name hv => exact law.carried_of_data (hst v (Store.stored_of_get? hv))
  | element ref hv => exact law.carried_of_data (hst v (.inr ⟨ref, hv⟩))
  | returned span hv => exact law.carried_returned span (hhand _ hv)

/-- A machine with a larger store and another control still obeys. -/
theorem Obeyed.change {m : Machine σ} (h : law.Obeyed m) {c : Control} {world : σ}
    (hst : law.ObeyedIn st) (hsize : m.store.arrays.size ≤ st.arrays.size)
    (hc : ∀ v, c = .value v → law.carried st.arrays.size v) :
    law.Obeyed ⟨c, m.frames, st, depth, world⟩ where
  stored := hst
  kept f hf v hv := law.data_mono hsize (h.kept f hf v hv)
  given := hc

/-- As `Obeyed.change`, with a frame on top. -/
theorem Obeyed.changePush {m : Machine σ} (h : law.Obeyed m) {f : Frame} {c : Control} {world : σ}
    (hf : ∀ v ∈ f.values, law.data m.store.arrays.size v) (hst : law.ObeyedIn st)
    (hsize : m.store.arrays.size ≤ st.arrays.size)
    (hc : ∀ v, c = .value v → law.carried st.arrays.size v) :
    law.Obeyed ⟨c, f :: m.frames, st, depth, world⟩ where
  stored := hst
  kept g hg v hv := by
    rcases List.mem_cons.1 hg with rfl | hg
    · exact law.data_mono hsize (hf v hv)
    · exact law.data_mono hsize (h.kept g hg v hv)
  given := hc

theorem not_value_of_isBusy {c : Control} (hc : c.isBusy = true) : c ≠ .value v := by
  rintro rfl
  cases hc

/-- Whatever a step makes of a base that obeys the law obeys it too. -/
theorem Obeyed.move (hhost : law.Followed host) {code : Part → Prop} {left : Bool}
    {m m' : Machine σ} (h : law.Obeyed m) (hhand : ∀ v ∈ hand, law.data m.store.arrays.size v)
    (hmove : Machine.Move host settings hand code left m m') : law.Obeyed m' := by
  have carried_null : ∀ {n : Nat} {span : Span} (v : Value),
      Control.value (.null span) = .value v → law.carried n v := by
    rintro n span v ⟨⟩
    exact law.carried_of_data (law.data_plain rfl)
  cases hmove with
  | give hv =>
    refine h.change h.stored (Nat.le_refl _) ?_
    rintro w ⟨⟩
    exact carried_of_obtained h.stored hhand hv
  | turn hc =>
    exact h.change h.stored (Nat.le_refl _) fun v hv => absurd hv (not_value_of_isBusy hc)
  | push hf hv hc =>
    exact h.changePush (fun v hmem => data_of_keepable hhand (hv v hmem)) h.stored (Nat.le_refl _)
      fun v hv => absurd hv (not_value_of_isBusy hc)
  | pushBlock b env hf hv =>
    refine h.changePush ?_ (h.stored.enter env) (Nat.le_refl _) fun v hv => by cases hv
    intro v hmem
    rw [hv] at hmem
    exact absurd hmem List.not_mem_nil
  | assign env name hv hc =>
    rw [Store.assign_eq_owner?]
    refine h.change (h.stored.bind (data_of_keepable hhand hv)) (Nat.le_refl _) ?_
    intro v hvalue
    rcases hc with hc | ⟨span, rfl⟩
    · exact absurd hvalue (not_value_of_isBusy hc)
    · exact carried_null v hvalue
  | setSlot ref slot span hv _ _ _ =>
    exact h.change (h.stored.setSlot (hhand _ hv)) (Nat.le_of_eq (size_setSlot _ _ _ _).symm)
      carried_null
  | array span hv =>
    have hsize := size_newArray m.store
    refine h.change (h.stored.newArray fun v hmem => hhand v (hv v hmem)) ?_ ?_
    · rw [hsize]
      exact Nat.le_succ _
    · rintro w ⟨⟩
      -- the new array is the last one of the grown store
      apply law.carried_of_data
      apply law.data_array
      rw [hsize]
      exact Nat.lt_succ_self _
  | function closure span =>
    refine h.change h.stored (Nat.le_refl _) ?_
    rintro w ⟨⟩
    exact law.carried_of_data (law.data_function _ _ _)
  | define closure env name span =>
    refine h.change (ObeyedIn.bind ?_ (law.data_function _ _ _)) (Nat.le_refl _) carried_null
    exact h.stored
  | call ref place span _ ha harity hdepth =>
    rw [Machine.apply_eq harity hdepth]
    have hkept := kept_bindParams (m.store.enter (m.store.closure ref).env).1
      (m.store.closure ref).literal.params ‹_› (m.store.enter (m.store.closure ref).env).2
    have hsize := congrArg Array.size hkept.1
    refine h.changePush ?_ ((h.stored.enter _).bindParams fun v hmem => hhand v (ha v hmem))
      (Nat.le_of_eq hsize.symm) fun v hv => by cases hv
    intro v hmem
    exact absurd hmem List.not_mem_nil
  | builtin function span ha =>
    obtain ⟨hstored, hgiven, hgrown⟩ :=
      hhost.builtin function _ span m.store m.world h.stored fun v hmem => hhand v (ha v hmem)
    rw [Machine.applyBuiltin]
    simp only
    split
    · refine h.change hstored hgrown ?_
      rintro w ⟨⟩
    · refine h.change hstored hgrown ?_
      rintro w ⟨⟩
      exact hgiven
  | command c span =>
    obtain ⟨hstored, hgiven, hgrown⟩ := hhost.command c span m.store m.world h.stored
    refine h.change hstored hgrown ?_
    rintro w ⟨⟩
    exact hgiven
  | pass _ _ => exact h
  | leave span _ => exact h.change h.stored (Nat.le_refl _) carried_null
  | unwrap _ hc hv =>
    refine h.change h.stored (Nat.le_refl _) ?_
    rintro w ⟨⟩
    exact law.carried_unwrap (h.given _ hc) hv
  | abort _ => exact h.change h.stored (Nat.le_refl _) h.given

theorem Obeyed.base {m : Machine σ} (h : law.Obeyed m) : law.Obeyed m.base := by
  rw [Machine.base]
  split
  · exact h
  · exact ⟨h.stored, fun f hf => h.kept f (List.mem_of_mem_tail hf), h.given⟩

/-- The values in hand are data: a value is used only if it is no signal. -/
theorem Obeyed.inHand {m : Machine σ} (h : law.Obeyed m) :
    ∀ v ∈ m.inHand, law.data m.store.arrays.size v := by
  intro v hv
  rw [Machine.inHand.eq_def] at hv
  split at hv
  · rename_i w f rest hc hf
    split at hv
    · exact absurd hv List.not_mem_nil
    · rename_i hsignal
      rcases List.mem_cons.1 hv with rfl | hv
      · exact law.data_of_carried (h.given _ hc) (Bool.eq_false_iff.2 hsignal)
      · exact h.kept f (by rw [hf]; exact List.mem_cons_self) v hv
  · exact absurd hv List.not_mem_nil

/-- **A law that the host keeps to holds in every state of a run.** -/
theorem run_obeys (hhost : law.Followed host) {m : Machine σ} (h : law.Obeyed m) (n : Nat) :
    law.Obeyed (m.run host settings n) := by
  refine Machine.run_invariant ?_ h n
  intro m m' hm _ hmove
  refine hm.base.move hhost ?_ hmove
  rw [Machine.store_base]
  exact hm.inHand

theorem Obeyed.load {s : Session σ} (h : law.ObeyedIn s.store) (p : Program) :
    law.Obeyed (Machine.load s p) := by
  rw [Machine.load]
  split
  · refine ⟨h, fun f hf => absurd hf List.not_mem_nil, ?_⟩
    rintro v ⟨⟩
    exact law.carried_of_data (law.data_plain rfl)
  · refine ⟨h, ?_, ?_⟩
    · intro f hf v hv
      obtain rfl := List.mem_singleton.1 hf
      exact absurd hv List.not_mem_nil
    · rintro v ⟨⟩

end ValueLaw

end Dncl
